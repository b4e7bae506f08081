import Tobdd.Lib.Trace
import Tobdd.MarkBound
import Tobdd.ThreadSafety

/-!
# The decision in enter_op

`if entry_num - marked < ...`: `entry_num` was read before the write lock was awaited, and other
threads may have gone on in between.

    enterOp_eq: what comes before the decision, and what after
    marked_add_dead: the entries of the table are those that are marked and those that are dead
    decision_iff: `entry_num - marked` is the number of dead nodes if and only if the table has as
                  many entries as when `entry_num` was read
    decision_wraps: ... and it wraps when a node was inserted in between
-/

namespace Tobdd

open Resume

namespace Manager

/-- `enter_op` up to the decision: `entry_num`, `bucket_size` and `marked`, where it cleans up. -/
def upToMarked (n : Nat) : Prog ops (Option (Nat × Nat × Nat)) := do
  let entryNum ← LockFreeSet.entryNum.lift table
  let bucketSize ← LockFreeSet.bucketSize.lift table
  let ok : Bool ← (if bucketSize * MAX_LOAD_FACTOR ≤ entryNum then step .tryPending
    else pure false : Prog ops Bool)
  if ok then do
    let _ : Unit ← step .awaitReaders
    let marked ← marks n
    return some (entryNum, bucketSize, marked)
  else
    return none

/-- ... and from there on. -/
def decided (n : Nat) : Option (Nat × Nat × Nat) → Prog ops Unit
  | some (entryNum, bucketSize, marked) => do
    (if wrapSub entryNum marked < bucketSize / 4 then do
      (LockFreeSet.unmarkNodes n).lift cleaner
      (LockFreeSet.grow n).lift cleaner
      growCaches
    else do
      (LockFreeSet.gcUnmarked n).lift cleaner
      (LockFreeSet.unmarkNodes n).lift cleaner
      invalidateCaches : Prog ops Unit)
    let _ : Unit ← step .dropWrite
    step .read
  | none => step .read

/-- ... and from there on, from `try_write`. -/
def upToMarkedFrom (n entryNum bucketSize : Nat) : Prog ops (Option (Nat × Nat × Nat)) := do
  let ok : Bool ← (if bucketSize * MAX_LOAD_FACTOR ≤ entryNum then step .tryPending
    else pure false : Prog ops Bool)
  if ok then do
    let _ : Unit ← step .awaitReaders
    let marked ← marks n
    return some (entryNum, bucketSize, marked)
  else
    return none

theorem upToMarked_eq (n : Nat) : upToMarked n = step (.acc .entryNum) >>= fun (entryNum : Nat) =>
    step (.acc .sizeExp) >>= fun (e : Nat) => upToMarkedFrom n entryNum (shl64 e) := rfl

theorem took_sizes (n : Nat) (entryNum e : Nat) : Took (upToMarked n)
    [⟨Op.acc .sizeExp, e⟩, ⟨Op.acc .entryNum, entryNum⟩] (upToMarkedFrom n entryNum (shl64 e)) := by
  rw [upToMarked_eq]
  have h₁ := (Took.start (step (.acc .entryNum) >>= fun (entryNum : Nat) =>
    step (.acc .sizeExp) >>= fun (e : Nat) => upToMarkedFrom n entryNum (shl64 e))).step entryNum
  exact h₁.step e

/-- `enter_op` in two parts. -/
theorem enterOp_eq (n : Nat) : enterOp n = upToMarked n >>= decided n := by
  unfold enterOp upToMarked
  refine Eq.trans (congrArg (Prog.bind _) (funext fun e => ?_)) (Prog.bind_assoc ..).symm
  refine Eq.trans (congrArg (Prog.bind _) (funext fun b => ?_)) (Prog.bind_assoc ..).symm
  refine Eq.trans (congrArg (Prog.bind _) (funext fun ok => ?_)) (Prog.bind_assoc ..).symm
  cases ok with
  | false => rfl
  | true =>
    refine congrArg (Prog.bind (step .awaitReaders)) (funext fun _ => ?_)
    have hback := Prog.bind_assoc (marks n) (fun marked => .ret (some (e, b, marked))) (decided n)
    exact (Prog.bind_assoc ..).trans hback.symm

end Manager

namespace ManagerThreads

open World
open Manager (Op ops step Enough upToMarked decided marks)

/-- The nodes of the table that `mark_nodes` has left out. -/
def dead (m : Nat) (x : Shared) : List Bdd :=
  (x.world.store m).nodes.filter fun a => ¬ (x.world.heap.get a).Marked

/-- What is known of a thread that has come up to the decision. -/
def Decides (g : Consts) (m n t : Nat) : Option (Nat × Nat × Nat) → Shared → Prop
  | some (_, _, marked), x => Place g m n t 0 (some true) x ∧ ∃ (w : World) (M : Finset Bdd),
      w.Inv ∧ w.made m = true ∧ marked = M.card ∧ (w.store m).MarkedNodes M (x.world.store m)
  | none, _ => True

section
variable {g : Consts} {m n t : Nat} {x x' : Shared} {a : Bdd}

theorem Decides.rely {o : Option (Nat × Nat × Nat)} (h : Decides g m n t o x)
    (hr : Inv g m n x → Rely g m n t x x') : Decides g m n t o x' := by
  match o, h with
  | none, _ => trivial
  | some (_, _, _), ⟨hp, w, M, hi, hm, hc, hM⟩ =>
    have hr := hr hp.inv
    have hd := (hr.drops ((hp.writer true).mpr rfl)).1
    exact ⟨hp.rely hr, w, M, hi, hm, hc, hM.drops hd.store⟩

/-- `enter_op` up to the decision. -/
theorem wp_upToMarked (hx : Place g m n t 0 none x) :
    wp (logic g m n t) (upToMarked n) (Decides g m n t) x := by
  unfold Manager.upToMarked
  refine wp_see (o := .acc .entryNum) hx id id (fun _ => rfl) (fun _ => ⟨_, Manager.exec_entryNum⟩)
    fun (e : Nat) x₁ hx₁ _ => ?_
  refine wp_see (o := .acc .sizeExp) hx₁ id id (fun _ => rfl) (fun _ => ⟨_, Manager.exec_sizeExp⟩)
    fun (b : Nat) x₂ hx₂ _ => ?_
  refine wp_bind.mpr (wp_ite (shl64 b * Manager.MAX_LOAD_FACTOR ≤ e) (fun _ => ?_) fun _ => trivial)
  refine wp_tryPending (k := Prog.ret) hx₂ (fun _ _ _ => trivial) fun x₃ hx₃ _ => ?_
  refine wp_awaitReaders hx₃ fun x₄ hx₄ hi₄ _ => ?_
  have hm := hx₄.inv.made_self
  have hsized : ¬ (x₄.world.store m).Sized → False := fun hs => hs (hi₄.table m hm).sized
  have hmark := Manager.wp_mark (t := t) hi₄ hm hsized
    (Or.inr hx₄.inv.fits.enough : False ∨ Enough x₄.world m n)
  refine wp_seq (wp_cleaning hx₄ hi₄ (only_cleaner _) hmark) ?_
  rintro c x₅ ⟨⟨⟨M, hc, hM, -⟩, -⟩, hx₅, -⟩
  exact ⟨hx₅, x₄.world, M, hi₄, hm, hc, hM⟩

/-! ## What is marked and what is dead -/

section
variable {w : World} {M : Finset Bdd} (hi : w.Inv) (hm : w.made m = true)
  (hM : (w.store m).MarkedNodes M (x.world.store m))
include hi hm hM

theorem nodes_marked : (x.world.store m).nodes = (w.store m).nodes := by
  have hl := hM.marks.leveled
  unfold Store.nodes
  rw [hl.buckets]
  exact List.flatMap_congr fun i hm' =>
    hl.chain_eq (hi.table m hm).inv.table.chains (List.mem_range.mp hm')

theorem marked_iff (ha : (w.store m).Live a) : (x.world.heap.get a).Marked ↔ a ∈ M := by
  have ht := hi.table m hm
  have hlevel : (x.world.heap.get a).level = (w.store m).marked M a :=
    hM.marks.leveled.level a (ht.nodes.has a ha)
  rw [← ht.markable.marked_iff ha, ← hlevel]
  exact Iff.rfl

/-- **The entries of the table** are those that are marked and those that are dead. -/
theorem marked_add_dead : M.card + (dead m x).length = (x.world.mgr m).set.numEntry := by
  have ht := hi.table m hm
  have hnodes := nodes_marked hi hm hM
  have hnd := Store.nodes_nodup ht.inv.table.chains
  have hM' : ((w.store m).nodes.filter fun a => (x.world.heap.get a).Marked).toFinset = M := by
    ext a
    simp only [List.mem_toFinset, List.mem_filter, Store.mem_nodes, decide_eq_true_eq]
    constructor
    · rintro ⟨hl, hmark⟩
      exact (marked_iff hi hm hM hl).mp hmark
    · intro ha
      have hl := hM.marks.sub a ha
      exact ⟨hl, (marked_iff hi hm hM hl).mpr ha⟩
  have hcard : ((w.store m).nodes.filter fun a => (x.world.heap.get a).Marked).length = M.card := by
    rw [← hM', List.toFinset_card_of_nodup (hnd.filter _)]
  have hsplit := List.length_eq_countP_add_countP (fun a => decide (x.world.heap.get a).Marked)
    (l := (w.store m).nodes)
  have hdead : (dead m x).length =
      (w.store m).nodes.countP fun a => decide ¬ (x.world.heap.get a).Marked := by
    unfold dead
    rw [hnodes, ← List.countP_eq_length_filter]
  rw [← List.countP_eq_length_filter] at hcard
  have hcount := ht.inv.counted
  unfold Store.Counted at hcount
  rw [ht.owed] at hcount
  have hentry : (x.world.mgr m).set.numEntry = (w.store m).set.numEntry := hM.marks.leveled.numEntry
  simp only [decide_eq_true_eq] at hsplit
  rw [hentry, hdead, ← hcard]
  simp only [List.length_nil] at hcount
  omega

/-- No reference leads to a dead node. -/
theorem dead_unneeded (ha : a ∈ dead m x) : ¬ x.world.Needed m a := by
  have ht := hi.table m hm
  have hl := hM.marks.leveled
  obtain ⟨hlive, hmark⟩ := List.mem_filter.mp ha
  rw [nodes_marked hi hm hM, Store.mem_nodes] at hlive
  rintro ⟨r, hr, hne, hra⟩
  rw [hl.live ht.inv.table.chains] at hr
  -- a node that still has references was marked, and so was all that it reaches
  have hrM : r ∈ M := by
    by_contra hno
    exact hne (hl.zero r (Or.inr ⟨hr, hno⟩))
  have haM : a ∈ M := by
    refine hra.mem (fun c d hc hcd => hM.survivors.closed c hc d ?_) hrM
    refine ⟨(hl.has c).mp hcd.1, (hl.has d).mp hcd.2.1, ?_⟩
    rw [← hl.low c, ← hl.high c]
    exact hcd.2.2
  exact absurd ((marked_iff hi hm hM hlive).mpr haM) (by simpa using hmark)

end

/-- The program of an operation goes over the decision. -/
theorem code_decides (g : Consts) (n : Nat) (c : Manager.Call) : ∃ f, code g n (.op c) =
    upToMarked n >>= fun o => decided n o >>= f := by
  have hcode := code_op g n c
  rw [Manager.enterOp_eq] at hcode
  exact ⟨_, hcode.trans (Prog.bind_assoc ..)⟩

end

/-- **When the decision is right.**  Threads share a manager that was just made, the counts of
references fit into 64 bits and the arrays can grow.  Where a thread in an operation has computed
`marked` under the write lock, `entry_num - marked` does not wrap and is the number of dead nodes
if and only if the table has as many entries as when the thread read `entry_num`; no reference
leads to a dead node. -/
theorem decision_iff {m n k : Nat} {x₀ : Shared} {t : Nat} {c : Manager.Call}
    {l : List (Nat × Answer ops)} {s : Conf ops Shared Nat Call Ret} (h₀ : Starts m x₀)
    (hf : x₀.Fits (x₀.world.consts m) m n)
    (h : (clients (x₀.world.consts m) m n).Within (Shared.Fits (x₀.world.consts m) m n) x₀ t (.op c)
      k l s) (entryNum bucketSize marked : Nat)
    (hd : Took (upToMarked n) (own t l) (.ret (some (entryNum, bucketSize, marked)))) :
    (s.world.lock m).writer = some (t, true) ∧
    (∃ f, s.pc t = some (.op c, decided n (some (entryNum, bucketSize, marked)) >>= f)) ∧
    (marked ≤ entryNum ∧ entryNum - marked = (dead m s.world).length ↔
      entryNum = (s.world.world.mgr m).set.numEntry) ∧
    ∀ a ∈ dead m s.world, ¬ s.world.world.Needed m a := by
  obtain ⟨hinv, hidle⟩ := h₀.inv hf
  have hknow := System.Within.knows (proof (x₀.world.consts m) m n) hinv hidle (c := Call.op c)
    (Q := Decides (x₀.world.consts m) m n t) (fun _ _ _ hQ hr => hQ.rely hr)
    (fun _ _ hw _ _ => wp_upToMarked hw) h hd
  obtain ⟨hp, w, M, hi, hm, rfl, hM⟩ := hknow
  have hsum := marked_add_dead hi hm hM
  refine ⟨(hp.writer true).mpr rfl, ?_, ?_, fun a ha => dead_unneeded hi hm hM ha⟩
  · obtain ⟨q, hpc, hq⟩ := h.took
    obtain ⟨f, hcode⟩ := code_decides (x₀.world.consts m) n c
    have hcode' : (clients (x₀.world.consts m) m n).code t (.op c) k = _ := hcode
    rw [hcode'] at hq
    refine ⟨f, ?_⟩
    rw [hpc, Took.unique (hd.bind _) hq]
    rfl
  · omega

/-! ## A node inserted in between -/

/-- Four buckets for the six nodes of two variables. -/
@[irreducible] def crowded : World := Manager.single 2 8 2

/-- The conjunction of the two variables. -/
def both : Manager.Call :=
  .and ((crowded.consts 0).vars.getD 0 0) ((crowded.consts 0).vars.getD 1 0)

/-- What thread 1 leaves when it has computed the conjunction. -/
@[irreducible] def between : Shared :=
  match run (exec 0 1) (code (crowded.consts 0) 60 (.op both)) ⟨crowded, []⟩ with
  | .ok (_, x) => x
  | .error _ => ⟨crowded, []⟩

theorem between_run :
    (run (exec 0 1) (code (crowded.consts 0) 60 (.op both)) ⟨crowded, []⟩).toOption.isSome ∧
    Along (exec 0 1) (fun _ => Small 0 60) (code (crowded.consts 0) 60 (.op both)) ⟨crowded, []⟩ ∧
    Small 0 60 between ∧ Small 0 60 ⟨crowded, []⟩ ∧ (crowded.mgr 0).set.numEntry = 6 ∧
    (crowded.mgr 0).set.sizeExp = 2 := by
  decide +kernel

/-- Thread 0, when it has read `entry_num`, marks that many nodes. -/
def Marks (entryNum marked : Nat) (x : Shared) : Prop :=
  (run (exec 0 0) (Manager.upToMarkedFrom 60 entryNum (shl64 2)) x).toOption.map Prod.fst =
    some (some (entryNum, 4, marked)) ∧
  Along (exec 0 0) (fun _ => Small 0 60) (Manager.upToMarkedFrom 60 entryNum (shl64 2)) x ∧
  ∀ y ∈ (run (exec 0 0) (Manager.upToMarkedFrom 60 entryNum (shl64 2)) x).toOption, Small 0 60 y.2

instance (entryNum marked : Nat) (x : Shared) : Decidable (Marks entryNum marked x) :=
  inferInstanceAs (Decidable (_ ∧ _ ∧ _))

theorem between_marks : Marks 6 7 between := by
  decide +kernel

theorem alone_marks : Marks 6 6 ⟨crowded, []⟩ := by
  decide +kernel

theorem crowded_starts : Starts 0 ⟨crowded, []⟩ := by
  unfold crowded
  exact single_starts 2 8 2 (by decide) (by decide)

theorem both_kept : ∀ a ∈ both.args, (crowded.consts 0).Kept a := by
  decide +kernel

theorem both_legal (t : Nat) : Call.Legal (crowded.consts 0) t ⟨crowded, []⟩ (.op both) :=
  fun a ha => Or.inr (both_kept a ha)

/-- The runs in which thread 0 computes the conjunction, from the crowded table. -/
abbrev Crowded : List (Nat × Answer ops) → Conf ops Shared Nat Call Ret → Prop :=
  (clients (crowded.consts 0) 0 60).Within (Shared.Fits (crowded.consts 0) 0 60) ⟨crowded, []⟩ 0
    (.op both) 60

/-- Thread 0 reads `entry_num` and `bucket_size`. -/
theorem crowded_read : ∃ f s,
    Crowded [(0, ⟨Op.acc .sizeExp, (2 : Nat)⟩), (0, ⟨Op.acc .entryNum, (6 : Nat)⟩)] s ∧
    s.world = ⟨crowded, []⟩ ∧ s.pc 1 = none ∧ s.pc 0 = some (Call.op both,
      Manager.upToMarkedFrom 60 6 (shl64 2) >>= fun o => decided 60 o >>= f) := by
  obtain ⟨-, -, -, hsmall, hentry, hsize⟩ := between_run
  have he₁ : exec 0 0 (.acc .entryNum) ⟨crowded, []⟩ = .ok ((6 : Nat), ⟨crowded, []⟩) := by
    rw [← hentry]
    exact exec_ok (x := ⟨crowded, []⟩) Manager.exec_entryNum
  have he₂ : exec 0 0 (.acc .sizeExp) ⟨crowded, []⟩ = .ok ((2 : Nat), ⟨crowded, []⟩) := by
    rw [← hsize]
    exact exec_ok (x := ⟨crowded, []⟩) Manager.exec_sizeExp
  obtain ⟨f, hcode⟩ := code_decides (crowded.consts 0) 60 both
  have h0 : Crowded [] _ := .enter .init rfl (both_legal 0) hsmall.fits
  have hpc : Function.update (fun _ : Nat => none) 0 (some (Call.op both, code (crowded.consts 0) 60
      (.op both))) 0 = some (Call.op both, upToMarked 60 >>= fun o => decided 60 o >>= f) := by
    rw [Function.update_self, hcode]
  have h1 := h0.exec 0 (.op both) (.acc .entryNum) (fun (e : Nat) =>
    step (.acc .sizeExp) >>= fun (b : Nat) => Manager.upToMarkedFrom 60 e (shl64 b) >>= fun o =>
      decided 60 o >>= f) (6 : Nat) ⟨crowded, []⟩ hpc he₁ hsmall.fits
  have h2 := h1.exec 0 (.op both) (.acc .sizeExp) (fun (b : Nat) =>
    Manager.upToMarkedFrom 60 6 (shl64 b) >>= fun o => decided 60 o >>= f) (2 : Nat) ⟨crowded, []⟩
    (by simp only [Function.update_self]; rfl) he₂ hsmall.fits
  exact ⟨f, _, h2, rfl, rfl, by simp only [Function.update_self]⟩

/-- ... and goes on to the decision. -/
theorem crowded_marks {f : Unit → Prog ops Ret} {l : List (Nat × Answer ops)}
    {s : Conf ops Shared Nat Call Ret} {marked : Nat} (hs : Crowded l s)
    (hl : own 0 l = [⟨Op.acc .sizeExp, (2 : Nat)⟩, ⟨Op.acc .entryNum, (6 : Nat)⟩])
    (hpc : s.pc 0 = some (Call.op both,
      Manager.upToMarkedFrom 60 6 (shl64 2) >>= fun o => decided 60 o >>= f))
    (hm : Marks 6 marked s.world) : ∃ l' s', Crowded l' s' ∧
      Took (upToMarked 60) (own 0 l') (.ret (some (6, 4, marked))) := by
  obtain ⟨hmarks, hal, hsmall⟩ := hm
  obtain ⟨x, hrun, hx⟩ : ∃ x, run (exec 0 0) (Manager.upToMarkedFrom 60 6 (shl64 2)) s.world =
      .ok (some (6, 4, marked), x) ∧ Small 0 60 x := by
    cases hr : run (exec 0 0) (Manager.upToMarkedFrom 60 6 (shl64 2)) s.world with
    | ok y =>
      rw [hr] at hmarks hsmall
      have hy : y.1 = some (6, 4, marked) := Option.some.inj hmarks
      exact ⟨y.2, by rw [← hy], hsmall y rfl⟩
    | error e =>
      rw [hr] at hmarks
      cases hmarks
  obtain ⟨h, htook, hs'⟩ := System.Within.part 0 (.op both) (fun o => decided 60 o >>= f) _ _ x hs
    hpc hrun (hal.mono fun _ _ h => h.fits) hx.fits
  refine ⟨_, _, hs', ?_⟩
  rw [own_append, own_mine, hl]
  exact (Manager.took_sizes 60 6 2).trans htook

theorem decision_iff_alone : ∃ (l : List (Nat × Answer ops)) (s : Conf ops Shared Nat Call Ret),
    Took (upToMarked 60) (own 0 l) (.ret (some (6, 4, 6))) ∧ (6 ≤ 6 ∧
      6 - 6 = (dead 0 s.world).length ↔ 6 = (s.world.world.mgr 0).set.numEntry) := by
  obtain ⟨f, s, hs, hw, -, hpc⟩ := crowded_read
  obtain ⟨l', s', hs', htook⟩ := crowded_marks hs rfl hpc (by rw [hw]; exact alone_marks)
  exact ⟨l', s', htook, (decision_iff crowded_starts between_run.2.2.2.1.fits hs' 6 4 6 htook).2.2.1⟩

/-- **`entry_num - marked` wraps**: thread 0 reads that the table has 6 entries, thread 1 computes
the conjunction of the two variables, and thread 0 takes the write lock and marks 7 nodes. -/
theorem decision_wraps : ∃ (l : List (Nat × Answer ops)) (s : Conf ops Shared Nat Call Ret),
    Starts 0 ⟨crowded, []⟩ ∧ Shared.Fits (crowded.consts 0) 0 60 ⟨crowded, []⟩ ∧
    (clients (crowded.consts 0) 0 60).Within (Shared.Fits (crowded.consts 0) 0 60) ⟨crowded, []⟩ 0
      (.op both) 60 l s ∧
    Took (upToMarked 60) (own 0 l) (.ret (some (6, 4, 7))) ∧ ¬ 7 ≤ 6 ∧
    Manager.wrapSub 6 7 = 2 ^ 64 - 1 := by
  obtain ⟨hok, hal, hsmall, hsmall₀, -, -⟩ := between_run
  obtain ⟨f, s, hs, hw, hidle, hpc⟩ := crowded_read
  -- thread 1 inserts a node
  obtain ⟨b, hrun⟩ : ∃ b, run (exec 0 1) (code (crowded.consts 0) 60 (.op both)) ⟨crowded, []⟩ =
      .ok (b, between) := by
    unfold between
    cases hr : run (exec 0 1) (code (crowded.consts 0) 60 (.op both)) ⟨crowded, []⟩ with
    | ok y => exact ⟨y.1, rfl⟩
    | error e =>
      rw [hr] at hok
      cases hok
  rw [← hw] at hrun hal
  obtain ⟨l, hown, hs₁⟩ := hs.whole (by decide : 1 ≠ 0) (.op both) 60 b between hidle
    (by rw [hw]; exact both_legal 1) hrun (hal.mono fun _ _ h => h.fits) hsmall.fits hsmall.fits
  -- thread 0 goes on
  obtain ⟨l', s', hs', htook⟩ := crowded_marks hs₁ hown (by simpa using hpc) between_marks
  exact ⟨l', s', crowded_starts, hsmall₀.fits, hs', htook, by decide, by decide⟩

end ManagerThreads

end Tobdd
