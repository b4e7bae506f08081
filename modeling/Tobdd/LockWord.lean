import Tobdd.Lib.Refine
import Tobdd.Spin.RwWPre
import Tobdd.ThreadSafety

/-!
# The lock of a manager, down to its word

`ManagerThreads` takes and drops the guards of a manager's lock in one step each.  Here the
same threads run the code of `spin/rw_w_pre.rs` instead: `try_write`, `read` and the two guard drops,
access by access, with weak exchanges that fail at will.

`Shared.abs` reads off the word and its owners what they stand for.  A thread takes and drops its
guards in an order, which `turn` has: it is outside the lock, reading, waiting for the readers with
`WRITE_PENDING` set, or writing, and visits nodes and cleans up in the right places only.

    paced_code: every call keeps to that order, and ends outside the lock
-/

namespace Tobdd.LockWord

open Resume World
open Manager (ops step)
open ManagerThreads (Call Ret clients code)
open RwWPre (Lock Site)

/-- The steps that take or drop a guard. -/
def Locks : Manager.Op → Bool
  | .tryPending | .awaitReaders | .dropWrite | .read | .dropRead => true
  | _ => false

/-- A step on the manager that leaves its lock alone, or an access to the word of the lock. -/
inductive Op where
  | manager (o : Manager.Op) (h : Locks o = false)
  | word (o : RwWPre.Op)

def sig : Sig where
  Op := Op
  Res
    | .manager o _ => ops.Res o
    | .word o => RwWPre.sig.Res o

/-- What the threads share; the lock in the record of manager `m` is not used. -/
structure Shared where
  clients : ManagerThreads.Shared
  lock : Lock Nat

def exec (m t : Nat) : (o : sig.Op) → Shared → Except Stop (sig.Res o × Shared)
  | .manager o _, x =>
    match ManagerThreads.exec m t o x.clients with
    | .ok (r, y) => .ok (r, { x with clients := y })
    | .error e => .error e
  | .word o, x =>
    match RwWPre.exec t o x.lock with
    | .ok (r, l) => .ok (r, { x with lock := l })
    | .error e => .error e

/-- The code of the lock is code of the manager. -/
def word : Emb RwWPre.sig sig where
  op o := Op.word o
  res _ r := r

/-- `try_write` takes the place of the writer and waits for the readers in one call. -/
def lockCode (n : Nat) : (o : ops.Op) → Locks o = true → Prog sig (ops.Res o)
  | .tryPending, _ => (RwWPre.tryWrite n).lift word
  | .awaitReaders, _ => .ret ()
  | .read, _ => (RwWPre.read n).lift word >>= fun _ => .ret ()
  | .dropRead, _ => RwWPre.dropRead.lift word >>= fun _ => .ret ()
  | .dropWrite, _ => RwWPre.dropWrite.lift word >>= fun _ => .ret ()

/-- A step of the manager as a program over its fields and the word of its lock. -/
def impl (n : Nat) (o : ops.Op) : Prog sig (ops.Res o) :=
  if h : Locks o = true then lockCode n o h
  else Prog.op (S := sig) (.manager o (Bool.not_eq_true _ ▸ h))

/-- The same threads, the loops of the lock going round as often as they like. -/
def words (g : Consts) (m n : Nat) : System sig Shared Nat Call Ret where
  exec := exec m
  code _ c k := (code g n c).expand (impl k)
  legal t c x := c.Legal g t x.clients
  enter t c x := { x with clients := c.enter t x.clients }
  leave _ _ _ x := x

/-- The guards that the word and its owners stand for. -/
def guards (l : Lock Nat) : RwLock := ⟨l.readers, l.writers.head?⟩

def Shared.abs (m : Nat) (x : Shared) : ManagerThreads.Shared :=
  ⟨x.clients.world.withLock m (guards x.lock), x.clients.refs⟩

/-! ## The order in which guards are taken and dropped -/

/-- Where a thread is. -/
inductive Stage where
  | outside
  | reading
  | pending
  | writing
  deriving DecidableEq

/-- Where a step that leaves the lock alone may be taken: nodes are visited under a read guard, and
the table is cleaned up under the write guard. -/
def allowed : Manager.Op → Stage → Bool
  | .clean _, x | .notInvalidate, x | .notGrow, x | .invalidate _, x | .grow _, x => x = .writing
  | .acc (.level _), x | .acc (.low _), x | .acc (.high _), x | .acc (.fetchAdd _), x
  | .makeNode _ _ _, x | .notGet _ _, x | .notInsert _ _ _, x | .get _ _ _, x
  | .insert _ _ _ _, x => x = .reading
  | .tryPending, _ | .awaitReaders, _ | .dropWrite, _ | .read, _ | .dropRead, _ => false
  | .acc _, x | .spinLoop, x => x ≠ .pending

/-- Who is `pending` can only wait for the readers. -/
def turn : (o : ops.Op) → Stage → Option (ops.Res o → Stage)
  | .tryPending, .outside => some fun (ok : Bool) => if ok = true then .pending else .outside
  | .awaitReaders, .pending => some fun _ => .writing
  | .dropWrite, .writing => some fun _ => .outside
  | .read, .outside => some fun _ => .reading
  | .dropRead, .reading => some fun _ => .outside
  | o, x => if allowed o x = true then some fun _ => x else none

theorem allowed_plain {o : ops.Op} {x : Stage} (h : allowed o x = true) :
    Locks o = false ∧ x ≠ .pending := by
  refine ⟨?_, ?_⟩
  · cases o with
    | tryPending | awaitReaders | dropWrite | read | dropRead => cases h
    | _ => rfl
  · rintro rfl
    cases o with
    | acc o => cases o <;> cases h
    | _ => cases h

theorem turn_stay {o : ops.Op} {x : Stage} (h : allowed o x = true) : turn o x = some fun _ => x := by
  have ho := (allowed_plain h).1
  cases o with
  | tryPending | awaitReaders | dropWrite | read | dropRead => cases ho
  | _ => exact if_pos h

theorem turn_plain {o : ops.Op} (ho : Locks o = false) {x : Stage} {f : ops.Res o → Stage}
    (h : turn o x = some f) : allowed o x = true ∧ f = fun _ => x := by
  have hx : allowed o x = true := by
    by_contra hx
    cases o with
    | tryPending | awaitReaders | dropWrite | read | dropRead => cases ho
    | _ => cases (if_neg hx).symm.trans h
  refine ⟨hx, ?_⟩
  rw [turn_stay hx] at h
  exact (Option.some.inj h).symm

section
variable {g : Consts} {m n t : Nat} {α : Type}

theorem paced_plain {p : Prog ops α} {x : Stage} (hp : p.Only fun o => allowed o x = true) :
    p.Follows turn x fun _ x' => x' = x :=
  hp.follows fun _ ho => turn_stay ho

theorem paced_cleans {p : Prog ops α} (hp : p.Only Manager.Op.Cleans) :
    p.Follows turn .writing fun _ x => x = .writing := by
  refine paced_plain (hp.mono fun o ho => ?_)
  cases o with
  | clean _ | notInvalidate | notGrow | invalidate _ | grow _ => rfl
  | _ => exact ho.elim

theorem paced_recur (g : Consts) (n : Nat) (c : Manager.Call) :
    (c.recur g n).Follows turn .reading fun _ x => x = .reading := by
  refine paced_plain ((Manager.recurs_recur g n c).mono fun o ho => ?_)
  cases o with
  | acc o =>
    cases o with
    | level _ | low _ | high _ => rfl
    | _ => exact ho.elim
  | makeNode _ _ _ | notGet _ _ | notInsert _ _ _ | get _ _ _ | insert _ _ _ _ | spinLoop => rfl
  | _ => exact ho.elim

theorem paced_step {o : ops.Op} {x x' : Stage} (h : turn o x = some fun _ => x') :
    (step o).Follows turn x fun _ y => y = x' := ⟨_, h, fun _ => rfl⟩

theorem paced_enterOp (n : Nat) :
    (Manager.enterOp n).Follows turn .outside fun _ y => y = .reading := by
  have hread : (step Manager.Op.read).Follows turn .outside fun _ y => y = .reading :=
    paced_step rfl
  have hentry : (LockFreeSet.entryNum.lift Manager.table).Follows turn .outside
      fun _ y => y = .outside := paced_step (o := .acc .entryNum) rfl
  have hsize : (LockFreeSet.bucketSize.lift Manager.table).Follows turn .outside
      fun _ y => y = .outside :=
    (paced_step (o := .acc .sizeExp) rfl).seq (f := fun e => Prog.ret (shl64 e)) fun _ => rfl
  unfold Manager.enterOp
  refine hentry.seq fun e => hsize.seq fun b => ?_
  have hok : (if b * Manager.MAX_LOAD_FACTOR ≤ e then step .tryPending
      else pure false : Prog ops Bool).Follows turn .outside
        fun ok y => y = if ok = true then Stage.pending else .outside := by
    exact .ite _ (fun _ => ⟨_, rfl, fun _ => rfl⟩) fun _ => rfl
  refine hok.bind fun ok y hy => ?_
  subst hy
  refine .ite _ (fun hok => ?_) fun hok => ?_
  · rw [if_pos hok]
    refine (paced_step (o := .awaitReaders) rfl).seq fun _ => ?_
    refine (paced_cleans (ManagerThreads.only_cleanUp ..)).seq fun _ => ?_
    exact (paced_step (o := .dropWrite) rfl).seq fun _ => hread
  · rw [if_neg hok]
    exact hread

theorem paced_gc (n : Nat) : (Manager.gc n).Follows turn .outside fun _ y => y = .outside := by
  unfold Manager.gc
  refine ⟨_, rfl, fun (ok : Bool) => .ite _ (fun hok => ?_) fun hok => ?_⟩
  · rw [if_pos hok]
    refine (paced_step (o := .awaitReaders) rfl).seq fun _ => ?_
    refine (paced_cleans (ManagerThreads.only_collect n)).seq fun _ => ?_
    exact (paced_step (o := .dropWrite) rfl).seq fun _ => rfl
  · rw [if_neg hok]
    rfl

/-- Every call starts and ends outside the lock. -/
theorem paced_code (g : Consts) (n : Nat) (c : Call) :
    (code g n c).Follows turn .outside fun _ y => y = .outside := by
  cases c with
  | op c =>
    have hop : (c.prog g n).Follows turn .outside fun _ y => y = .outside := by
      rw [Manager.Call.prog_eq, Manager.operation_eq]
      refine (paced_enterOp n).seq fun _ => ?_
      refine (paced_recur g n c).seq fun b => ?_
      refine (paced_step (o := .acc (.fetchAdd b)) rfl).seq fun _ => ?_
      exact (paced_step (o := .dropRead) rfl).seq fun _ => rfl
    exact hop.seq fun _ => rfl
  | gc => exact (paced_gc n).seq fun _ => rfl
  | derefBdd bdd => exact (paced_step (o := .acc (.fetchSub bdd)) rfl).seq fun _ => rfl
  | hand bdd u => rfl

end

end Tobdd.LockWord
