import Tobdd.ArraySizes
import Tobdd.Housekeeping

/-!
# The assertion of mark_nodes

`debug_assert!(counter <= (2 << self.size_exp.get()))`: no more than two nodes are marked for
each bucket.

    run_marks: what is marked are the nodes that are needed
    Reach.asserted: the assertion holds in `gc` if and only if at most twice as many nodes are
                    needed as there are buckets, and in an operation if that or the table is
                    not full
    few_init: ... so for a new manager, if its variables and a constant fit the buckets
    assertion_fails: ... and not in a table of two buckets with two variables
-/

namespace Tobdd

open Resume

namespace Manager

open World

/-- `2 << e` in `usize`. -/
def twoShl (e : Nat) : Nat := 2 * shl64 e % 2 ^ 64

/-- The assertion, where `mark_nodes` is about to say how many nodes it has marked. -/
def Asserted (m : Nat) : ops.Op → World → Prop
  | .clean (.setMarks counter), w => counter ≤ twoShl (w.mgr m).set.sizeExp
  | _, _ => True

/-- At most twice as many nodes as there are buckets are needed. -/
def Few (w : World) (m : Nat) : Prop :=
  ∃ M : Finset Bdd, (∀ a, a ∈ M ↔ (w.store m).Live a ∧ w.Needed m a) ∧
    M.card ≤ 2 * (w.mgr m).set.buckets.len

/-! ## The steps that assert nothing -/

/-- The steps other than the one with the assertion. -/
def Op.Silent : Op → Prop
  | .clean o => ¬ o.Counts
  | _ => True

theorem Op.Silent.passes {m : Nat} {o : Op} (h : o.Silent) (w : World) : Asserted m o w := by
  cases o with
  | clean o =>
    cases o with
    | setMarks c => exact absurd trivial h
    | _ => trivial
  | _ => trivial

section
variable {m n t : Nat} {α β : Type} {w w' : World}

theorem silent_step {o : Op} (ho : o.Silent) : (step o).Only Op.Silent := ⟨ho, fun _ => trivial⟩

theorem silent_cleaner {p : Prog mem α} (hp : p.Only fun o => ¬ Access.Counts o) :
    (p.lift cleaner).Only Op.Silent :=
  hp.lift fun _ ho => ho

theorem silent_calm {p : Prog mem α} (hp : p.Only Access.Calm) :
    (p.lift cleaner).Only Op.Silent :=
  silent_cleaner (hp.mono fun _ ho => ho.not_counts)

theorem silent_caches : invalidateCaches.Only Op.Silent ∧ growCaches.Only Op.Silent := by
  constructor
  · exact .bind (silent_step trivial) fun _ => .bind (silent_step trivial) fun _ =>
      .bind (silent_step trivial) fun _ => .bind (silent_step trivial) fun _ =>
      .bind (silent_step trivial) fun _ => .bind (silent_step trivial) fun _ => trivial
  · exact .bind (silent_step trivial) fun _ => .bind (silent_step trivial) fun _ =>
      .bind (silent_step trivial) fun _ => .bind (silent_step trivial) fun _ =>
      .bind (silent_step trivial) fun _ => .bind (silent_step trivial) fun _ => trivial

theorem silent_recur (g : Consts) (n : Nat) (c : Call) : (c.recur g n).Only Op.Silent := by
  refine (recurs_recur g n c).mono fun o ho => ?_
  cases o with
  | clean o => exact ho.elim
  | _ => trivial

theorem along_silent {p : Prog ops α} (hp : p.Only Op.Silent) :
    Along (exec m t) (Asserted m) p w :=
  (hp.mono fun _ ho => ho.passes).along

/-- What follows matters only where it asserts something. -/
theorem along_front {p : Prog ops α} {f : α → Prog ops β} (hf : ∀ a, (f a).Only Op.Silent) :
    Along (exec m t) (Asserted m) (p >>= f) w ↔ Along (exec m t) (Asserted m) p w := by
  rw [along_bind]
  constructor
  · intro h
    exact h.1
  · intro h
    exact ⟨h, fun a w' _ => along_silent (hf a)⟩

/-- A step that answers and asserts nothing. -/
theorem along_next {o : Op} {k : ops.Res o → Prog ops α} {r : ops.Res o} (ho : o.Silent)
    (he : exec m t o w = .ok (r, w')) :
    Along (exec m t) (Asserted m) (step o >>= k) w ↔ Along (exec m t) (Asserted m) (k r) w' := by
  refine (along_step he).trans ?_
  constructor
  · intro h
    exact h.2
  · intro h
    exact ⟨ho.passes w, h⟩

theorem along_if_pos {c : Prop} [Decidable c] (hc : c) {p q : Prog ops α} {f : α → Prog ops β} :
    Along (exec m t) (Asserted m) ((if c then p else q) >>= f) w ↔
      Along (exec m t) (Asserted m) (p >>= f) w := by
  rw [if_pos hc]

theorem along_if_neg {c : Prop} [Decidable c] (hc : ¬ c) {p q : Prog ops α} {f : α → Prog ops β} :
    Along (exec m t) (Asserted m) ((if c then p else q) >>= f) w ↔
      Along (exec m t) (Asserted m) (q >>= f) w := by
  rw [if_neg hc]

end

/-! ## Marking -/

section
variable {m n t : Nat} {w w' : World}

/-- `mark_nodes`, in the manager. -/
def marks (n : Nat) : Prog ops Nat := (LockFreeSet.markNodes n).lift cleaner

/-- Thread `t` holds the write lock of manager `m`, alone. -/
def locked (m t : Nat) (w : World) : World := w.withLock m ⟨[], some (t, true)⟩

/-- Manager `m` has stored that `c` nodes are marked. -/
def counted (m c : Nat) (w : World) : World :=
  w.put m { w.store m with set := { (w.mgr m).set with numMarks := c } }

theorem counted_sizeExp (c : Nat) :
    ((counted m c w).mgr m).set.sizeExp = (w.mgr m).set.sizeExp := by
  unfold counted
  rw [put_mgr]

theorem exec_setMarks (c : Nat) : exec m t (.clean (.setMarks c)) w = .ok ((), counted m c w) := rfl

theorem marks_eq (n : Nat) : marks n = (LockFreeSet.countMarks n).lift cleaner >>= fun c =>
    step (.clean (.setMarks c)) >>= fun _ => return c := by
  unfold marks
  rw [LockFreeSet.markNodes_eq, lift_bind]
  rfl

theorem run_marks_iff {c : Nat} : run (exec m t) (marks n) w = .ok (c, w') ↔
    ∃ w₁, run (exec m t) ((LockFreeSet.countMarks n).lift cleaner) w = .ok (c, w₁) ∧
      w' = counted m c w₁ := by
  rw [marks_eq]
  have hb := run_bind (exec m t) ((LockFreeSet.countMarks n).lift cleaner)
    (fun c => step (.clean (.setMarks c)) >>= fun _ => return c) w
  cases hrun : run (exec m t) ((LockFreeSet.countMarks n).lift cleaner) w with
  | error e =>
    rw [hrun] at hb
    constructor
    · intro h
      cases hb.symm.trans h
    · rintro ⟨w₁, h, -⟩
      cases h
  | ok x =>
    rw [hrun] at hb
    have hb := hb.trans (run_step_ok (exec_setMarks x.1))
    constructor
    · intro h
      obtain ⟨rfl, rfl⟩ := Prod.mk.inj (Except.ok.inj (hb.symm.trans h))
      exact ⟨x.2, rfl, rfl⟩
    · rintro ⟨w₁, h, rfl⟩
      obtain rfl := Except.ok.inj h
      exact hb

/-- **The assertion is about the answer** of `mark_nodes`. -/
theorem along_marks :
    Along (exec m t) (Asserted m) (marks n) w ↔ ∀ c w', run (exec m t) (marks n) w = .ok (c, w') →
      c ≤ twoShl (w'.mgr m).set.sizeExp := by
  have hfront : Along (exec m t) (Asserted m) ((LockFreeSet.countMarks n).lift cleaner) w :=
    along_silent (silent_calm (LockFreeSet.calm_countMarks n))
  rw [marks_eq, along_bind, ← marks_eq]
  constructor
  · rintro ⟨-, h⟩ c w' hr
    obtain ⟨w₁, h1, rfl⟩ := run_marks_iff.mp hr
    rw [counted_sizeExp]
    exact (h c w₁ h1).1
  · intro h
    refine ⟨hfront, fun c w₁ h1 => ⟨?_, fun _ _ _ => trivial⟩⟩
    have hc := h c _ (run_marks_iff.mpr ⟨w₁, h1, rfl⟩)
    rw [counted_sizeExp] at hc
    exact hc

/-- What is marked and not collected is needed, and the other way round. -/
theorem mem_marked_iff (hi : w.Inv) (hm : w.made m = true) {M : Finset Bdd}
    (hM : (w.store m).MarkedNodes M (w'.store m))
    (hc : (w.store m).Tidies (w.store m).Live (w'.store m)) (a : Bdd) :
    a ∈ M ↔ (w.store m).Live a ∧ w.Needed m a := by
  constructor
  · intro ha
    exact ⟨hM.survivors.live a ha, hM.survivors.origin a ha⟩
  · rintro ⟨-, r, hr, hne, hra⟩
    refine hra.mem (fun x y hx hxy => hM.survivors.closed x hx y hxy) ?_
    -- an unmarked node was seen without references, and alone it had none from the start
    by_contra hno
    have hz := hM.marks.leveled.zero r (Or.inr ⟨hr, hno⟩)
    have hhas : (w'.store m).heap.Has r :=
      (hM.marks.leveled.has r).mpr ((hi.table m hm).nodes.has r hr)
    exact hne ((hc.same r hhas).2.symm.trans hz)

/-- **`mark_nodes` marks the nodes that are needed**, with enough rounds. -/
theorem run_marks (hi : w.Inv) (hm : w.made m = true) (t n : Nat) :
    (∃ (M : Finset Bdd) (w' : World), run (exec m t) (marks n) (locked m t w) = .ok (M.card, w') ∧
      (∀ a, a ∈ M ↔ (w.store m).Live a ∧ w.Needed m a) ∧
      (w'.mgr m).set.sizeExp = (w.mgr m).set.sizeExp) ∨
    run (exec m t) (marks n) (locked m t w) = .error .spin ∧ ¬ Enough w m n := by
  have hi₁ : (locked m t w).Inv := hi.withLock m _
  have hst : (locked m t w).store m = w.store m := withLock_store ..
  have hbad : ¬ ((locked m t w).store m).Sized → False := fun hs => hs (hi₁.table m hm).sized
  have hmark := wp_mark (t := t) (n := n) hi₁ hm hbad
    ((Classical.em (Enough w m n)).symm.imp_right Enough.withLock)
  rcases wp_run (fun _ => .refl _) (fun _ _ _ => .trans) (wp_tidying hmark) with
    ⟨c, w', hrun, ⟨⟨M, rfl, hM, -⟩, -⟩, hc⟩ | ⟨e, w', hrun, hstop, -⟩
  · have hmem := mem_marked_iff hi₁ hm hM hc.tidies
    have hexp := hM.marks.leveled.sizeExp
    have hneed : ∀ a, (locked m t w).Needed m a ↔ w.Needed m a := by
      intro a
      unfold Needed
      rw [hst]
      rfl
    rw [hst] at hexp
    simp only [hst, hneed] at hmem
    exact Or.inl ⟨M, w', hrun, hmem, hexp⟩
  · rcases hstop with ⟨rfl, hn⟩ | ⟨-, h⟩
    · exact Or.inr ⟨hrun, hn⟩
    · exact h.elim

theorem twoShl_eq (hi : w.Inv) (hm : w.made m = true) :
    twoShl (w.mgr m).set.sizeExp = 2 * (w.mgr m).set.buckets.len := by
  have hlen : (w.mgr m).set.buckets.len = rangeI32 (w.mgr m).set.sizeExp := (hi.table m hm).len
  have hsized : (w.mgr m).set.buckets.len = shl64 (w.mgr m).set.sizeExp := (hi.table m hm).sized
  have hlt := rangeI32_lt (w.mgr m).set.sizeExp
  unfold twoShl
  rw [← hsized, Nat.mod_eq_of_lt]
  omega

/-- The assertion holds, for every number of rounds, where few nodes are needed. -/
theorem along_marks_locked (hi : w.Inv) (hm : w.made m = true) :
    (∀ n, Along (exec m t) (Asserted m) (marks n) (locked m t w)) ↔ Few w m := by
  constructor
  · intro h
    rcases run_marks hi hm t (2 * w.heap.brk + (w.consts m).numVars + 2) with
      ⟨M, w', hrun, hM, hexp⟩ | ⟨-, hen⟩
    · have hle := along_marks.mp (h _) _ _ hrun
      rw [hexp, twoShl_eq hi hm] at hle
      exact ⟨M, hM, hle⟩
    · exact absurd (enough_of_le (Nat.le_refl _)) hen
  · rintro ⟨M, hM, hle⟩ n
    refine along_marks.mpr fun c w' hr => ?_
    rcases run_marks hi hm t n with ⟨M', w₁, hrun, hM', hexp⟩ | ⟨hrun, -⟩
    · obtain ⟨rfl, rfl⟩ := Prod.mk.inj (Except.ok.inj (hrun.symm.trans hr))
      have heq : M' = M := by
        ext a
        rw [hM', hM]
      rw [hexp, twoShl_eq hi hm, heq]
      exact hle
    · cases hrun.symm.trans hr

/-! ## The calls -/

theorem along_gc (hl : w.Idle m) : Along (exec m t) (Asserted m) (gc n) w ↔
    Along (exec m t) (Asserted m) (marks n) (locked m t w) := by
  have hwait : exec m t .awaitReaders (w.withLock m ⟨[], some (t, false)⟩) =
      .ok ((), locked m t w) := by
    rw [exec_awaitReaders (by rw [withLock_mgr]), withLock_withLock]
    rfl
  refine (along_next (o := .tryPending) trivial (exec_tryPending hl)).trans ?_
  refine (along_next (o := .awaitReaders) trivial hwait).trans ?_
  have hlast : ∀ c : Nat, (step .dropWrite >>= fun _ => return c : Prog ops Nat).Only Op.Silent :=
    fun c => .bind (silent_step trivial) fun _ => trivial
  refine (along_front hlast).trans ?_
  refine along_front fun c => ?_
  exact .bind (silent_calm (LockFreeSet.calm_gcUnmarked n)) fun _ =>
    .bind (silent_calm (LockFreeSet.calm_unmarkNodes n)) fun _ => .bind silent_caches.1 fun _ => trivial

theorem along_cleanUp {e b : Nat} : Along (exec m t) (Asserted m) (cleanUp e b n) w ↔
    Along (exec m t) (Asserted m) (marks n) w := by
  refine along_front fun c => .ite _ ?_ ?_
  · exact .bind (silent_calm (LockFreeSet.calm_unmarkNodes n)) fun _ =>
      .bind (silent_cleaner (LockFreeSet.grow_uncounted n)) fun _ => silent_caches.2
  · exact .bind (silent_calm (LockFreeSet.calm_gcUnmarked n)) fun _ =>
      .bind (silent_calm (LockFreeSet.calm_unmarkNodes n)) fun _ => silent_caches.1

/-- `enter_op` marks where the table is full. -/
theorem along_enterOp (hl : w.Idle m) : Along (exec m t) (Asserted m) (enterOp n) w ↔
    (Loaded w m → Along (exec m t) (Asserted m) (marks n) (locked m t w)) := by
  have hwait : exec m t .awaitReaders (w.withLock m ⟨[], some (t, false)⟩) =
      .ok ((), locked m t w) := by
    rw [exec_awaitReaders (by rw [withLock_mgr]), withLock_withLock]
    rfl
  refine (along_next (o := .acc .entryNum) trivial exec_entryNum).trans ?_
  refine (along_next (o := .acc .sizeExp) trivial exec_sizeExp).trans ?_
  by_cases hfull : shl64 (w.mgr m).set.sizeExp * MAX_LOAD_FACTOR ≤ (w.mgr m).set.numEntry
  · refine (along_if_pos (c := shl64 (w.mgr m).set.sizeExp * MAX_LOAD_FACTOR ≤
      (w.mgr m).set.numEntry) hfull).trans ?_
    refine (along_next (o := .tryPending) trivial (exec_tryPending hl)).trans ?_
    refine (along_next (o := .awaitReaders) trivial hwait).trans ?_
    have hlast : ((do
        let _ : Unit ← step .dropWrite
        step .read) : Prog ops Unit).Only Op.Silent :=
      .bind (silent_step trivial) fun _ => silent_step trivial
    refine ((along_front fun _ => hlast).trans along_cleanUp).trans ?_
    constructor
    · exact fun h _ => h
    · exact fun h => h hfull
  · refine (along_if_neg (c := shl64 (w.mgr m).set.sizeExp * MAX_LOAD_FACTOR ≤
      (w.mgr m).set.numEntry) hfull).trans ?_
    constructor
    · exact fun _ h => absurd h hfull
    · exact fun _ => along_silent (silent_step trivial)

theorem along_call (c : Call) (g : Consts) : Along (exec m t) (Asserted m) (c.prog g n) w ↔
    Along (exec m t) (Asserted m) (enterOp n) w := by
  rw [Call.prog_eq, operation_eq]
  refine along_front fun _ => .bind (silent_recur g n c) fun r => ?_
  exact .bind (silent_step trivial) fun _ => .bind (silent_step trivial) fun _ => trivial

end

/-! ## A new manager -/

/-- In a new manager every node is needed: few are if the variables and one constant fit. -/
theorem few_init {m : Nat} {tableSize cacheSize : UInt64} {varNum : Nat} {w w' : World}
    (hf : Founded m tableSize cacheSize varNum w w') :
    Few w' m ↔ 1 + varNum ≤ shl64 (capacityExp tableSize) := by
  have hm : w'.made m = true := hf.here
  have hlen : (w'.mgr m).set.buckets.len = shl64 (capacityExp tableSize) := by
    rw [← hf.tableExp]
    exact (hf.inv.table m hm).sized
  have hcard : ∀ M : Finset Bdd, (∀ a, a ∈ M ↔ (w'.store m).Live a) → M.card = 2 + 2 * varNum := by
    intro M hM
    rw [← hf.count]
    exact ((hf.inv.sound hm).card hM).symm
  have hneeded : ∀ a, (w'.store m).Live a → w'.Needed m a := by
    intro a ha
    refine ⟨a, ha, ?_, .refl⟩
    rw [hf.refs a ha]
    decide
  constructor
  · rintro ⟨M, hM, hle⟩
    have h := hcard M fun a => (hM a).trans ⟨fun h => h.1, fun h => ⟨h, hneeded a h⟩⟩
    omega
  · intro hle
    have hM : ∀ a, a ∈ (w'.store m).nodes.toFinset ↔ (w'.store m).Live a := by
      intro a
      rw [List.mem_toFinset, Store.mem_nodes]
    refine ⟨(w'.store m).nodes.toFinset, fun a => ?_, ?_⟩
    · exact (hM a).trans ⟨fun h => ⟨h, hneeded a h⟩, fun h => h.1⟩
    · rw [hcard _ hM, hlen]
      omega

section
variable {t m : Nat} {w : World}

/-- **The assertion holds** in a call of `gc` if and only if few nodes are needed, and in an
operation if and only if this is so or the table is not full; in a manager that `init` has just
made, few nodes are needed if and only if the variables and one constant fit the buckets. -/
theorem Reach.asserted (h : Reach t w) (hw : w.Whole) (hm : w.made m = true) :
    ((∀ n, Along (exec m t) (Asserted m) (gc n) w) ↔ Few w m) ∧
    (∀ c : Call, (∀ n, Along (exec m t) (Asserted m) (c.prog (w.consts m) n) w) ↔
      (Loaded w m → Few w m)) ∧
    ∀ (w₀ : World) (tableSize cacheSize : UInt64) (varNum n : Nat), Reach t w₀ → w₀.Whole →
      w₀.made m = false → init m t tableSize cacheSize varNum n w₀ = .ok w →
      (Few w m ↔ 1 + varNum ≤ shl64 (capacityExp tableSize)) := by
  have hr := h.resting hw
  have hl := hr.idle m hm
  have hmarks := along_marks_locked (t := t) hr.inv hm
  refine ⟨?_, ?_, ?_⟩
  · rw [← hmarks]
    exact forall_congr' fun n => along_gc hl
  · intro c
    rw [← hmarks]
    simp only [along_call, along_enterOp hl]
    exact forall_comm
  · intro w₀ tableSize cacheSize varNum n h₀ hw₀ hm₀ hrun
    rcases run_init (h₀.resting hw₀).inv hm₀ t tableSize cacheSize varNum n with
      ⟨w₁, hok, hf⟩ | ⟨e, herr, -⟩
    · obtain rfl := Except.ok.inj (hok.symm.trans hrun)
      exact few_init hf
    · cases herr.symm.trans hrun

theorem Reach.asserted_single : Few (single 8 8 2) 0 ∧
    ∀ n, Along (exec 0 0) (Asserted 0) (gc n) (single 8 8 2) := by
  obtain ⟨hr, hw, hm⟩ := single_ready 8 8 2 (by decide) (by decide)
  obtain ⟨hf, -⟩ := single_founded 8 8 2 (by decide) (by decide)
  have hfew : Few (single 8 8 2) 0 := (few_init hf).mpr (by decide)
  exact ⟨hfew, (Reach.asserted hr hw hm).1.mpr hfew⟩

/-- Two buckets for the six nodes of two variables. -/
theorem assertion_fails : Reach 0 (single 0 8 2) ∧ (single 0 8 2).Whole ∧
    (single 0 8 2).made 0 = true ∧
    ¬ ∀ n, Along (exec 0 0) (Asserted 0) (gc n) (single 0 8 2) := by
  obtain ⟨hr, hw, hm⟩ := single_ready 0 8 2 (by decide) (by decide)
  obtain ⟨hf, -⟩ := single_founded 0 8 2 (by decide) (by decide)
  refine ⟨hr, hw, hm, fun h => ?_⟩
  have hall : ∀ n, Along (exec 0 0) (Asserted 0) (marks n) (locked 0 0 (single 0 8 2)) :=
    fun n => (along_gc hf.idle).mp (h n)
  have hfew := (few_init hf).mp ((along_marks_locked hf.inv hm).mp hall)
  revert hfew
  decide

end

end Manager

end Tobdd
