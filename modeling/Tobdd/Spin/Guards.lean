import Tobdd.Lib.Schedule
import Tobdd.Spin.RwWPre

/-!
# The guards of the lock

`readGuards h` and `writeGuards h` are the guards that the clients have, by the calls and returns
`h`.  The live guards are these and those in the hands of a call that has just made one, or is about
to drop one (`Ledger`).

For every run in which fewer than `2^62` read guards live at once:

    a live write guard excludes every other guard; the count in the word is the number of
    live read guards; one writer at most; no new reader while there is one   (lock_excludes)
-/

namespace Tobdd.RwWPre

open Resume

section
variable {Tid : Type}

/-- The live write guards. -/
def Lock.writeGuards (w : Lock Tid) : List Tid := (w.writers.filter (·.2)).map (·.1)

/-- The read guards that were returned, and neither dropped nor sent away since. -/
def readGuards [DecidableEq Tid] : List (Event Tid (Call Tid) Bool) → List Tid
  | [] => []
  | .ret t .read true :: h => t :: readGuards h
  | .call t .dropRead :: h => (readGuards h).erase t
  | .call t (.sendRead u) :: h => u :: (readGuards h).erase t
  | _ :: h => readGuards h

def writeGuards [DecidableEq Tid] : List (Event Tid (Call Tid) Bool) → List Tid
  | [] => []
  | .ret t .tryWrite true :: h => t :: writeGuards h
  | .call t .dropWrite :: h => (writeGuards h).erase t
  | .call t (.sendWrite u) :: h => u :: (writeGuards h).erase t
  | _ :: h => writeGuards h

/-- The read guards in the hands of a thread: it is about to return one, or to drop one. -/
def readInHand : Option (Call Tid × Prog sig Bool) → Nat
  | some (.read, .ret true) => 1
  | some (.dropRead, .step _ _) => 1
  | _ => 0

def writeInHand : Option (Call Tid × Prog sig Bool) → Nat
  | some (.tryWrite, .ret true) => 1
  | some (.dropWrite, .step _ _) => 1
  | _ => 0

/-- The read guards that an operation makes, with its answer. -/
def made : (o : Op) → sig.Res o → Nat
  | .exchange .read _, r => if r.1 then 1 else 0
  | _, _ => 0

def dropped : Op → Nat
  | .fetchSub => 1
  | _ => 0

def madeWrite : (o : Op) → sig.Res o → Nat
  | .exchange .locked _, r => if r.1 then 1 else 0
  | _, _ => 0

def droppedWrite : Op → Nat
  | .fetchAnd => 1
  | _ => 0

/-- What is in hand in the code of call `c` changes with the guards that are made and dropped. -/
def Keeping (c : Call Tid) : Prog sig Bool → Prop
  | .ret _ => True
  | .step o k => ∀ r,
    readInHand (some (c, k r)) + dropped o = readInHand (some (c, .step o k)) + made o r ∧
    writeInHand (some (c, k r)) + droppedWrite o =
      writeInHand (some (c, .step o k)) + madeWrite o r ∧
    Keeping c (k r)

/-- ... and nothing is in hand yet. -/
structure Bare (c : Call Tid) (p : Prog sig Bool) : Prop where
  keeping : Keeping c p
  read : readInHand (some (c, p)) = 0
  write : writeInHand (some (c, p)) = 0

/-- The call is one that makes a guard. -/
def Call.Makes : Call Tid → Prop
  | .read | .tryWrite => True
  | _ => False

variable {c : Call Tid} {p q : Prog sig Bool}

/-- A call that makes a guard has none before its last exchange. -/
theorem inHand_step (hc : c.Makes) (o : Op) (k : sig.Res o → Prog sig Bool) :
    readInHand (some (c, .step o k)) = 0 ∧ writeInHand (some (c, .step o k)) = 0 := by
  cases c with
  | read | tryWrite => exact ⟨rfl, rfl⟩
  | dropRead | dropWrite | sendRead | sendWrite => exact hc.elim

theorem bare_load (hc : c.Makes) {k : UInt64 → Prog sig Bool} (h : ∀ s, Bare c (k s)) :
    Bare c (Prog.op (S := sig) .load >>= k) := by
  obtain ⟨h1, h2⟩ := inHand_step hc .load k
  refine ⟨fun s => ⟨?_, ?_, (h s).keeping⟩, h1, h2⟩
  · exact (h s).read.trans h1.symm
  · exact (h s).write.trans h2.symm

/-- An exchange, after which the guard that it makes is in hand. -/
theorem bare_exchange (hc : c.Makes) {site : Site} {s : UInt64} {k : Bool × UInt64 → Prog sig Bool}
    (hok : ∀ x, Keeping c (k (true, x)) ∧
      readInHand (some (c, k (true, x))) = made (.exchange site s) (true, x) ∧
      writeInHand (some (c, k (true, x))) = madeWrite (.exchange site s) (true, x))
    (hno : ∀ x, Bare c (k (false, x))) :
    Bare c (Prog.op (S := sig) (.exchange site s) >>= k) := by
  obtain ⟨h1, h2⟩ := inHand_step hc (.exchange site s) k
  have hstep : ∀ (r : Bool × UInt64), Keeping c (k r) →
      readInHand (some (c, k r)) = made (.exchange site s) r →
      writeInHand (some (c, k r)) = madeWrite (.exchange site s) r →
      readInHand (some (c, k r)) + 0 =
        readInHand (some (c, .step (.exchange site s) k)) + made (.exchange site s) r ∧
      writeInHand (some (c, k r)) + 0 =
        writeInHand (some (c, .step (.exchange site s) k)) + madeWrite (.exchange site s) r ∧
      Keeping c (k r) := by
    intro r hk hr hw
    rw [h1, h2, Nat.zero_add, Nat.zero_add]
    exact ⟨hr, hw, hk⟩
  refine ⟨?_, h1, h2⟩
  rintro ⟨b, x⟩
  cases b with
  | true =>
    obtain ⟨hk, hr, hw⟩ := hok x
    exact hstep (true, x) hk hr hw
  | false =>
    have hmade : made (.exchange site s) (false, x) = 0 ∧
        madeWrite (.exchange site s) (false, x) = 0 := by
      cases site <;> exact ⟨rfl, rfl⟩
    exact hstep (false, x) (hno x).keeping ((hno x).read.trans hmade.1.symm)
      ((hno x).write.trans hmade.2.symm)

theorem bare_ite (b : Prop) [Decidable b] (hp : Bare c p) (hq : Bare c q) :
    Bare c (if b then p else q) := by
  split
  · exact hp
  · exact hq

theorem bare_spinLoop (hc : c.Makes) : Bare c spinLoop := by
  obtain ⟨h1, h2⟩ := inHand_step hc .spinLoop (Empty.elim : Empty → Prog sig Bool)
  exact ⟨fun r => Empty.elim r, h1, h2⟩

theorem bare_read (n : Nat) : Bare (.read : Call Tid) (read n) := by
  induction n with
  | zero => exact bare_spinLoop trivial
  | succ n ih =>
    refine bare_load (c := .read) trivial fun s => bare_ite _ ih ?_
    exact bare_exchange (c := .read) trivial (fun x => ⟨trivial, rfl, rfl⟩) fun x => ih

theorem bare_awaitReaders (n : Nat) : Bare (.tryWrite : Call Tid) (awaitReaders n) := by
  induction n with
  | zero => exact bare_spinLoop trivial
  | succ n ih =>
    refine bare_load (c := .tryWrite) trivial fun s => bare_ite _ ?_ ih
    exact bare_exchange (c := .tryWrite) trivial (fun x => ⟨trivial, rfl, rfl⟩) fun x => ih

theorem bare_takePending (n : Nat) (s : UInt64) : Bare (.tryWrite : Call Tid) (takePending n s) := by
  induction n generalizing s with
  | zero => exact bare_spinLoop trivial
  | succ n ih =>
    refine bare_ite _ ⟨trivial, rfl, rfl⟩ ?_
    have ha : Bare (.tryWrite : Call Tid) (awaitReaders n) := bare_awaitReaders n
    exact bare_exchange (c := .tryWrite) trivial (fun x => ⟨ha.keeping, ha.read, ha.write⟩) ih

theorem keeping_code [DecidableEq Tid] (t : Tid) (c : Call Tid) (n : Nat) :
    Keeping c (locks.code t c n) := by
  cases c with
  | read => exact (bare_read n).keeping
  | tryWrite => exact (bare_load (c := .tryWrite) trivial fun s => bare_takePending n s).keeping
  | dropRead | dropWrite => exact fun _ => ⟨rfl, rfl, trivial⟩
  | sendRead | sendWrite => trivial

end

section
variable {Tid : Type} [DecidableEq Tid]

omit [DecidableEq Tid] in
theorem count_writeGuards [DecidableEq Tid] (w : Lock Tid) (t : Tid) :
    w.writeGuards.count t = w.writers.count (t, true) := by
  unfold Lock.writeGuards
  induction w.writers with
  | nil => rfl
  | cons x l ih =>
    obtain ⟨u, b⟩ := x
    cases b with
    | true => simp [List.count_cons, ih]
    | false => simp [ih]

/-- What an operation of thread `t` does to the guards. -/
theorem exec_counts {t : Tid} {o : Op} {r : sig.Res o} {w w' : Lock Tid}
    (he : exec t o w = .ok (r, w')) (hr : dropped o ≤ w.readers.count t)
    (hw : droppedWrite o ≤ w.writers.count (t, true)) :
    w'.readers.count t + dropped o = w.readers.count t + made o r ∧
    w'.writers.count (t, true) + droppedWrite o = w.writers.count (t, true) + madeWrite o r ∧
    ∀ u, u ≠ t → w'.readers.count u = w.readers.count u ∧
      w'.writers.count (u, true) = w.writers.count (u, true) := by
  cases o with
  | load =>
    obtain ⟨-, rfl⟩ := Prod.mk.inj (Except.ok.inj he)
    exact ⟨rfl, rfl, fun u _ => ⟨rfl, rfl⟩⟩
  | exchange site s =>
    by_cases hc : w.state = s ∧ w.weak 0 = false
    · simp only [exec, if_pos hc] at he
      obtain ⟨rfl, rfl⟩ := Prod.mk.inj (Except.ok.inj he)
      cases site with
      | read => exact ⟨List.count_cons_self, rfl, fun u hu => ⟨List.count_cons_of_ne hu.symm, rfl⟩⟩
      | pending =>
        refine ⟨rfl, List.count_cons_of_ne (by simp), fun u _ => ⟨rfl, ?_⟩⟩
        exact List.count_cons_of_ne (by simp)
      | locked =>
        refine ⟨rfl, ?_, fun u hu => ⟨rfl, ?_⟩⟩
        · exact List.count_cons_self.trans (congrArg (· + 1) (List.count_erase_of_ne (by simp)))
        · exact (List.count_cons_of_ne (by simp [hu.symm])).trans (List.count_erase_of_ne (by simp))
    · simp only [exec, if_neg hc] at he
      obtain ⟨rfl, rfl⟩ := Prod.mk.inj (Except.ok.inj he)
      cases site <;> exact ⟨rfl, rfl, fun u _ => ⟨rfl, rfl⟩⟩
  | fetchSub =>
    obtain ⟨-, rfl⟩ := Prod.mk.inj (Except.ok.inj he)
    refine ⟨?_, rfl, fun u hu => ⟨List.count_erase_of_ne hu, rfl⟩⟩
    show (w.readers.erase t).count t + 1 = _
    rw [List.count_erase_self]
    exact Nat.sub_add_cancel hr
  | fetchAnd =>
    obtain ⟨-, rfl⟩ := Prod.mk.inj (Except.ok.inj he)
    refine ⟨rfl, ?_, fun u hu => ⟨rfl, List.count_erase_of_ne (by simp [hu])⟩⟩
    show (w.writers.erase (t, true)).count (t, true) + 1 = _
    rw [List.count_erase_self]
    exact Nat.sub_add_cancel hw
  | spinLoop => cases he

/-- The guards of the lock are those that the clients have and those that are in hand. -/
structure Ledger (h : List (Event Tid (Call Tid) Bool)) (s : Conf sig (Lock Tid) Tid (Call Tid) Bool) :
    Prop where
  read : ∀ t, s.world.readers.count t = (readGuards h).count t + readInHand (s.pc t)
  write : ∀ t, s.world.writeGuards.count t = (writeGuards h).count t + writeInHand (s.pc t)

/-- A return puts what was in hand into the ledger. -/
theorem count_ret (h : List (Event Tid (Call Tid) Bool)) (t : Tid) (c : Call Tid) (a : Bool) (u : Tid) :
    (readGuards (.ret t c a :: h)).count u =
      (readGuards h).count u + (if t = u then readInHand (some (c, .ret a)) else 0) ∧
    (writeGuards (.ret t c a :: h)).count u =
      (writeGuards h).count u + (if t = u then writeInHand (some (c, .ret a)) else 0) := by
  cases c <;> cases a <;>
    simp [readGuards, writeGuards, readInHand, writeInHand, List.count_cons]

omit [DecidableEq Tid] in
theorem count_erase_add {α : Type} [BEq α] [LawfulBEq α] {l : List α} {a : α} (ha : a ∈ l) (b : α) :
    (l.erase a).count b + (if a == b then 1 else 0) = l.count b := by
  have hpos : 0 < l.count a := List.count_pos_iff.mpr ha
  rw [List.count_erase]
  split
  · next hab =>
    obtain rfl := eq_of_beq hab
    omega
  · rfl

/-- A call takes the guard that is to be dropped out of the ledger, and may send one. -/
theorem count_call {h : List (Event Tid (Call Tid) Bool)} {w : Lock Tid} {t : Tid} {c : Call Tid}
    (n : Nat) (hl : locks.legal t c w) (hr : w.readers.count t = (readGuards h).count t)
    (hw : w.writeGuards.count t = (writeGuards h).count t) (u : Tid) :
    (locks.enter t c w).readers.count u + (readGuards h).count u =
      w.readers.count u + (readGuards (.call t c :: h)).count u +
        (if t = u then readInHand (some (c, locks.code t c n)) else 0) ∧
    (locks.enter t c w).writers.count (u, true) + (writeGuards h).count u =
      w.writers.count (u, true) + (writeGuards (.call t c :: h)).count u +
        (if t = u then writeInHand (some (c, locks.code t c n)) else 0) := by
  rw [count_writeGuards] at hw
  cases c with
  | read => simp [locks, readGuards, writeGuards, (bare_read n).read, (bare_read n).write]
  | tryWrite =>
    have hbare : Bare (.tryWrite : Call Tid) (tryWrite n) :=
      bare_load (c := .tryWrite) trivial fun s => bare_takePending n s
    simp [locks, readGuards, writeGuards, hbare.read, hbare.write]
  | dropRead =>
    have ht : t ∈ readGuards h := List.count_pos_iff.mp (hr ▸ List.count_pos_iff.mpr hl)
    have hhand : readInHand (some ((.dropRead : Call Tid), dropRead)) = 1 := rfl
    have hnone : writeInHand (some ((.dropRead : Call Tid), dropRead)) = 0 := rfl
    have hguards := count_erase_add ht u
    simp only [locks, readGuards, writeGuards, hhand, hnone, beq_iff_eq] at hguards ⊢
    exact ⟨by omega, by simp⟩
  | dropWrite =>
    have ht : t ∈ writeGuards h := List.count_pos_iff.mp (hw ▸ List.count_pos_iff.mpr hl)
    have hhand : writeInHand (some ((.dropWrite : Call Tid), dropWrite)) = 1 := rfl
    have hnone : readInHand (some ((.dropWrite : Call Tid), dropWrite)) = 0 := rfl
    have hguards := count_erase_add ht u
    simp only [locks, readGuards, writeGuards, hhand, hnone, beq_iff_eq] at hguards ⊢
    exact ⟨by simp, by omega⟩
  | sendRead v =>
    have ht : t ∈ readGuards h := List.count_pos_iff.mp (hr ▸ List.count_pos_iff.mpr hl)
    have hhand : ∀ p, readInHand (some ((.sendRead v : Call Tid), p)) = 0 := fun p => rfl
    have hnone : ∀ p, writeInHand (some ((.sendRead v : Call Tid), p)) = 0 := fun p => rfl
    have hlive := count_erase_add (hl : t ∈ w.readers) u
    have hguards := count_erase_add ht u
    simp only [locks, readGuards, writeGuards, hhand, hnone, List.count_cons, beq_iff_eq,
      ite_self] at hlive hguards ⊢
    exact ⟨by omega, by simp⟩
  | sendWrite v =>
    have ht : t ∈ writeGuards h := List.count_pos_iff.mp (hw ▸ List.count_pos_iff.mpr hl)
    have hhand : ∀ p, writeInHand (some ((.sendWrite v : Call Tid), p)) = 0 := fun p => rfl
    have hnone : ∀ p, readInHand (some ((.sendWrite v : Call Tid), p)) = 0 := fun p => rfl
    have hlive := count_erase_add (hl : (t, true) ∈ w.writers) (u, true)
    have hguards := count_erase_add ht u
    simp only [locks, readGuards, writeGuards, hhand, hnone, List.count_cons, beq_iff_eq,
      Prod.mk.injEq, and_true, ite_self] at hlive hguards ⊢
    exact ⟨by simp, by omega⟩

/-- A step of thread `t`: what it has in hand is accounted for, and the others have what they had. -/
theorem Ledger.move {h h' : List (Event Tid (Call Tid) Bool)}
    {s : Conf sig (Lock Tid) Tid (Call Tid) Bool} (hs : Ledger h s) {t : Tid} {w' : Lock Tid}
    {x : Option (Call Tid × Prog sig Bool)}
    (hr : w'.readers.count t = (readGuards h').count t + readInHand x)
    (hw : w'.writers.count (t, true) = (writeGuards h').count t + writeInHand x)
    (hother : ∀ u, u ≠ t →
      w'.readers.count u + (readGuards h).count u =
        s.world.readers.count u + (readGuards h').count u ∧
      w'.writers.count (u, true) + (writeGuards h).count u =
        s.world.writers.count (u, true) + (writeGuards h').count u) :
    Ledger h' ⟨w', Function.update s.pc t x⟩ := by
  constructor
  · intro u
    by_cases hu : u = t
    · subst hu
      simp only [Function.update_self]
      exact hr
    · simp only [Function.update_of_ne hu]
      have hread := hs.read u
      have := (hother u hu).1
      omega
  · intro u
    rw [count_writeGuards]
    by_cases hu : u = t
    · subst hu
      simp only [Function.update_self]
      exact hw
    · simp only [Function.update_of_ne hu]
      have hwrite := hs.write u
      rw [count_writeGuards] at hwrite
      have := (hother u hu).2
      omega

/-- **The ledger is right.** -/
theorem ledger {F : Lock Tid → Prop} {weak : Nat → Bool} {h : List (Event Tid (Call Tid) Bool)}
    {s : Conf sig (Lock Tid) Tid (Call Tid) Bool} (hs : locks.Runs F (new weak) h s) :
    Ledger h s := by
  induction hs with
  | init => exact ⟨fun t => rfl, fun t => rfl⟩
  | @call h s hs t c n hpc hl hf ih =>
    have hr : s.world.readers.count t = (readGuards h).count t := by
      rw [ih.read t, hpc]
      rfl
    have hw : s.world.writeGuards.count t = (writeGuards h).count t := by
      rw [ih.write t, hpc]
      rfl
    have hcount := count_call n hl hr hw
    rw [count_writeGuards] at hw
    obtain ⟨hr', hw'⟩ := hcount t
    rw [if_pos rfl] at hr' hw'
    refine ih.move (by omega) (by omega) fun u hu => ?_
    obtain ⟨hru, hwu⟩ := hcount u
    rw [if_neg (Ne.symm hu)] at hru hwu
    exact ⟨hru, hwu⟩
  | @exec h s hs t c o k r w' hpc hex hf ih =>
    have hkeep : Keeping c (.step o k) :=
      hs.reach.code (fun t c n => keeping_code t c n) (fun c o k r hk => (hk r).2.2) hpc
    obtain ⟨hr, hw, -⟩ := hkeep r
    have ihr := ih.read t
    have ihw := ih.write t
    rw [hpc] at ihr ihw
    rw [count_writeGuards] at ihw
    have hdrop : dropped o ≤ s.world.readers.count t ∧
        droppedWrite o ≤ s.world.writers.count (t, true) := by
      cases o <;> simp only [dropped, droppedWrite, made, madeWrite] at hr hw ⊢ <;> omega
    obtain ⟨h1, h2, hother⟩ := exec_counts hex hdrop.1 hdrop.2
    refine ih.move (by omega) (by omega) fun u hu => ?_
    obtain ⟨hru, hwu⟩ := hother u hu
    rw [hru, hwu]
    exact ⟨rfl, rfl⟩
  | @ret h s hs t c a hpc hf ih =>
    have hr := ih.read t
    have hw := ih.write t
    rw [hpc] at hr hw
    rw [count_writeGuards] at hw
    obtain ⟨hr', hw'⟩ := count_ret h t c a t
    rw [if_pos rfl] at hr' hw'
    refine ih.move (hr.trans hr'.symm) (hw.trans hw'.symm) fun u hu => ?_
    obtain ⟨hru, hwu⟩ := count_ret h t c a u
    rw [if_neg (Ne.symm hu)] at hru hwu
    rw [hru, hwu]
    exact ⟨rfl, rfl⟩

/-- A write guard that a client has is the only guard that clients have. -/
theorem Ledger.alone {h : List (Event Tid (Call Tid) Bool)} {s : Conf sig (Lock Tid) Tid (Call Tid) Bool}
    (hl : Ledger h s) {t : Tid} (ht : t ∈ writeGuards h)
    (hone : ∀ u ∈ s.world.writeGuards, s.world.readers = [] ∧ s.world.writeGuards = [u]) :
    readGuards h = [] ∧ writeGuards h = [t] := by
  have hpos := List.count_pos_iff.mpr ht
  have hw := hl.write t
  obtain ⟨hr, hws⟩ := hone t (List.count_pos_iff.mp (by omega))
  have hzero : ∀ u, (readGuards h).count u = 0 := by
    intro u
    have hu := hl.read u
    rw [hr, List.count_nil] at hu
    omega
  have hall : ∀ u ∈ writeGuards h, u = t := by
    intro u hu
    have hc := List.count_pos_iff.mpr hu
    have hwu := hl.write u
    exact List.mem_singleton.mp (hws ▸ List.count_pos_iff.mp (by omega))
  have hrep := List.eq_replicate_of_mem hall
  have hlen : (writeGuards h).count t = (writeGuards h).length := by
    rw [hrep, List.count_replicate_self, List.length_replicate]
  rw [hws, List.count_singleton_self] at hw
  refine ⟨List.eq_nil_iff_forall_not_mem.mpr fun u => List.count_eq_zero.mp (hzero u), ?_⟩
  rw [hrep, show (writeGuards h).length = 1 by omega]
  rfl

/-- **The lock.**  In every run with fewer than `2^62` read guards at a time: the live guards are
those that the clients were given and those in the hands of a call; a live write guard is the only
guard; the count in the word is the number of live read guards; at most one thread is between
setting `WRITE_PENDING` and dropping its write guard; and while there is such a thread no step
creates a read guard. -/
theorem lock_excludes (weak : Nat → Bool) (h : List (Event Tid (Call Tid) Bool))
    (s : Conf sig (Lock Tid) Tid (Call Tid) Bool) (hs : locks.Runs Fits (new weak) h s) :
    Ledger h s ∧
    (∀ t ∈ writeGuards h, readGuards h = [] ∧ writeGuards h = [t]) ∧
    (∀ t ∈ s.world.writeGuards, s.world.readers = [] ∧ s.world.writeGuards = [t]) ∧
    (s.world.state >>> READER_SHIFT).toNat = s.world.readers.length ∧
    s.world.writers.length ≤ 1 ∧
    (s.world.writers = [] ↔ s.world.state &&& (WRITE_LOCKED ||| WRITE_PENDING) = 0) ∧
    ∀ s', locks.Step s s' → Fits s'.world → s.world.writers ≠ [] →
      s'.world.readers.length ≤ s.world.readers.length := by
  obtain ⟨hinv, hat⟩ := proof.sound (inv_new weak) (fun _ => trivial) hs.reach
  have halone : ∀ t ∈ s.world.writeGuards, s.world.readers = [] ∧ s.world.writeGuards = [t] := by
    intro t ht
    unfold Lock.writeGuards at ht ⊢
    obtain ⟨⟨u, b⟩, hm, rfl⟩ := List.mem_map.mp ht
    obtain ⟨hm, hb⟩ := List.mem_filter.mp hm
    obtain rfl : b = true := hb
    obtain ⟨hw, hr, -⟩ := mem_writers_locked hinv hm
    exact ⟨hr, by rw [hw]; rfl⟩
  refine ⟨ledger hs, fun t ht => (ledger hs).alone ht halone, halone, ?_, ?_, ?_,
    fun s' hstep hf hne => ?_⟩
  · rw [shift_toNat, hinv.count]
  · cases hinv.word with
    | free h _ => rw [h]; exact Nat.zero_le _
    | pending t h _ => rw [h]; exact Nat.le_refl _
    | locked t h _ _ => rw [h]; exact Nat.le_refl _
  · rw [writerBits_eq_zero, hinv.free_iff]
  · obtain ⟨t, pc', hg, -⟩ := proof.step_guar hinv hat hstep hf
    exact hg.noReader hinv hne

end

/-! ## A reader, and a writer that waits for it -/

instance (t : Nat) (c : Call Nat) (w : Lock Nat) : Decidable (locks.legal t c w) :=
  match c with
  | .read | .tryWrite => inferInstanceAs (Decidable True)
  | .dropRead | .sendRead _ => inferInstanceAs (Decidable (t ∈ w.readers))
  | .dropWrite | .sendWrite _ => inferInstanceAs (Decidable ((t, true) ∈ w.writers))

def play (l : List (Nat × Turn (Call Nat))) :
    Option (List (Event Nat (Call Nat) Bool) × Conf sig (Lock Nat) Nat (Call Nat) Bool) :=
  locks.follow (fun t c w => decide (locks.legal t c w)) (fun w => decide (w.readers.length < 2 ^ 62))
    l [] ⟨new fun _ => false, fun _ => none⟩

/-- Thread 0 takes a read guard; thread 1 comes as the writer, finds it, and thread 2 waits for the
writer. -/
def waiting : List (Nat × Turn (Call Nat)) :=
  (0, .call .read 4) :: List.replicate 3 (0, .go) ++
  (1, .call .tryWrite 8) :: List.replicate 3 (1, .go) ++
  (2, .call .read 9) :: List.replicate 2 (2, .go)

/-- The reader drops its guard, and the writer gets the lock. -/
def granted : List (Nat × Turn (Call Nat)) :=
  waiting ++ (0, .call .dropRead 0) :: List.replicate 2 (0, .go) ++ List.replicate 3 (1, .go)

theorem play_runs {l : List (Nat × Turn (Call Nat))} {h : List (Event Nat (Call Nat) Bool)}
    {s : Conf sig (Lock Nat) Nat (Call Nat) Bool} (hrun : play l = some (h, s)) :
    locks.Runs Fits (new fun _ => false) h s :=
  System.Runs.follow .init (fun _ _ _ => of_decide_eq_true)
    (fun w hw => (of_decide_eq_true hw : w.readers.length < 2 ^ 62)) l hrun

theorem waiting_run : ∃ x ∈ play waiting, readGuards x.1 = [0] ∧ writeGuards x.1 = [] ∧
    x.2.world.readers = [0] ∧ x.2.world.writers = [(1, false)] := by
  decide +kernel

theorem granted_run : ∃ x ∈ play granted, writeGuards x.1 = [1] := by
  decide +kernel

theorem lock_excludes_waiting :
    (∃ h s, locks.Runs Fits (new fun _ => false) h s ∧ readGuards h = [0] ∧
      s.world.writers = [(1, false)] ∧ Ledger h s ∧ (s.world.state >>> READER_SHIFT).toNat = 1 ∧
      ∀ s', locks.Step s s' → Fits s'.world → s'.world.readers.length ≤ 1) ∧
    ∃ h s, locks.Runs Fits (new fun _ => false) h s ∧ writeGuards h = [1] ∧ readGuards h = [] ∧
      (s.world.state >>> READER_SHIFT).toNat = s.world.readers.length := by
  constructor
  · obtain ⟨⟨h, s⟩, hrun, hread, -, hreaders, hwriters⟩ := waiting_run
    have hs := play_runs hrun
    obtain ⟨h1, -, -, h4, -, -, h7⟩ := lock_excludes _ h s hs
    rw [hreaders] at h4 h7
    have hne : s.world.writers ≠ [] := by
      rw [hwriters]
      exact List.cons_ne_nil _ _
    exact ⟨h, s, hs, hread, hwriters, h1, h4, fun s' hstep hf => h7 s' hstep hf hne⟩
  · obtain ⟨⟨h, s⟩, hrun, hwrite⟩ := granted_run
    have hs := play_runs hrun
    obtain ⟨-, h2, -, h4, -⟩ := lock_excludes _ h s hs
    exact ⟨h, s, hs, hwrite, (h2 1 (by rw [hwrite]; exact List.mem_singleton_self 1)).1, h4⟩

end Tobdd.RwWPre
