import Tobdd.Runs

/-!
# The end of a manager

`Drop for LockFreeSet` goes along the chains and frees every node.  The scratch nodes stay:
they belong to the threads.

    Store.run_drop: `drop` frees the nodes of the table, each once, and nothing else
    Sound.congr: a manager whose nodes are not among them is as it was
-/

namespace Tobdd

open Resume Linked

/-! ## The code -/

namespace LockFreeSet

/-- The inner loop of `drop`. -/
def dropChain : Nat → Bdd → Prog mem Unit
  | 0, _ => spinLoop
  | n + 1, curr =>
    if curr = 0 then return ()
    else do
      let next : Bdd ← acc (.load (.next curr))
      let _ : Unit ← acc (.free curr)
      dropChain n next

/-- `drop`, with the array that `buckets` points to. -/
def drop (buckets : Slice Bdd) (n : Nat) : Prog mem Unit :=
  Prog.forRange buckets.len (fun i _ => dropChain n (buckets.get i)) ()

end LockFreeSet

/-- A manager goes out of scope. -/
def Manager.drop (m t n : Nat) (w : World) : Except Stop World :=
  match run (Store.exec t) (LockFreeSet.drop (w.mgr m).set.buckets n) (w.store m) with
  | .ok (_, s) => .ok { w.put m s with made := Function.update w.made m false }
  | .error e => .error e

/-! ## Freeing several nodes -/

namespace Heap

/-- `drop(Box::from_raw(a))` for each `a` in `l`. -/
def freeAll (h : Heap) (l : List Bdd) : Heap := l.foldl Heap.free h

variable {h : Heap} {l : List Bdd} {a : Bdd}

theorem freeAll_cons : h.freeAll (a :: l) = (h.free a).freeAll l := rfl

theorem freeAll_append {l' : List Bdd} : h.freeAll (l ++ l') = (h.freeAll l).freeAll l' :=
  List.foldl_append ..

@[simp] theorem freeAll_brk : (h.freeAll l).brk = h.brk := by
  induction l generalizing h with
  | nil => rfl
  | cons b l ih => exact ih

@[simp] theorem freeAll_frees : (h.freeAll l).frees a = h.frees a + l.count a := by
  induction l generalizing h with
  | nil => rfl
  | cons b l ih =>
    rw [freeAll_cons, ih, List.count_cons]
    show Function.update h.frees b (h.frees b + 1) a + _ = _
    by_cases hab : a = b
    · subst hab
      simp
      omega
    · rw [Function.update_of_ne hab]
      simp [Ne.symm hab]

theorem freeAll_cell_of_mem (ha : a ∈ l) : (h.freeAll l).cell a = none := by
  induction l generalizing h with
  | nil => exact absurd ha List.not_mem_nil
  | cons b l ih =>
    rw [freeAll_cons]
    by_cases hl : a ∈ l
    · exact ih hl
    · obtain rfl : a = b := (List.mem_cons.mp ha).resolve_right hl
      clear ih ha
      have hnone : (h.free a).cell a = none := free_cell_self
      generalize h.free a = h' at hnone ⊢
      induction l generalizing h' with
      | nil => exact hnone
      | cons c l ih =>
        rw [freeAll_cons]
        simp only [List.mem_cons, not_or] at hl
        exact ih hl.2 _ ((free_cell_of_ne hl.1).trans hnone)

theorem freeAll_cell_of_not_mem (ha : a ∉ l) : (h.freeAll l).cell a = h.cell a := by
  induction l generalizing h with
  | nil => rfl
  | cons b l ih =>
    simp only [List.mem_cons, not_or] at ha
    rw [freeAll_cons, ih ha.2, free_cell_of_ne ha.1]

theorem freeAll_has : (h.freeAll l).Has a ↔ h.Has a ∧ a ∉ l := by
  unfold Has
  by_cases ha : a ∈ l
  · simp [freeAll_cell_of_mem ha, ha]
  · simp [freeAll_cell_of_not_mem ha, ha]

theorem freeAll_get_of_not_mem (ha : a ∉ l) : (h.freeAll l).get a = h.get a := by
  unfold get
  rw [freeAll_cell_of_not_mem ha]

end Heap

namespace Store

variable {s : Store} {t n : Nat}

/-- The nodes behind a place, none of them twice; `ld` is what the links were before. -/
theorem run_dropChain {ld : Place → Bdd} : ∀ n (l : List Bdd) (h : Heap) q,
    Seg Place.next ld q l 0 → (∀ a ∈ l, h.Has a ∧ (h.get a).next = ld (.next a)) → l.Nodup →
      l.length < n →
      run (Store.exec t) (LockFreeSet.dropChain n (ld q)) { s with heap := h } =
        .ok ((), { s with heap := h.freeAll l }) := by
  intro n
  induction n with
  | zero =>
    intro l h q _ _ _ hn
    omega
  | succ n ih =>
    intro l h q hseg hl hnd hn
    cases l with
    | nil =>
      have hz : ld q = 0 := hseg
      rw [hz]
      rfl
    | cons a l =>
      obtain ⟨ha, hseg⟩ := hseg
      obtain ⟨hal, hnd⟩ := List.nodup_cons.mp hnd
      obtain ⟨hha, hnext⟩ := hl a List.mem_cons_self
      rw [ha]
      unfold LockFreeSet.dropChain
      rw [if_neg hha.ne_zero]
      refine (run_acc (o := .load (.next a)) (exec_load_eq (s := { s with heap := h })
        (missing_next hha) hnext)).trans ?_
      refine (run_acc (o := .free a) (exec_free (s := { s with heap := h }) hha)).trans ?_
      -- the rest of the chain is as it was when `a` is gone
      refine ih l (h.free a) (.next a) hseg (fun b hb => ?_) hnd (by simpa using hn)
      have hba : b ≠ a := fun hba => hal (hba ▸ hb)
      unfold Heap.Has Heap.get
      rw [Heap.free_cell_of_ne hba]
      exact hl b (List.mem_cons_of_mem _ hb)

/-- The buckets from `i` on. -/
theorem run_dropBuckets (hc : Chains s.set.buckets s.heap s.chain) (hn : s.heap.brk < n) :
    ∀ k i, i + k = s.set.buckets.len →
      run (Store.exec t) (Prog.forFrom (fun i _ => LockFreeSet.dropChain n (s.set.buckets.get i)) i k ())
        { s with heap := s.heap.freeAll ((List.range i).flatMap s.chain) } =
        .ok ((), { s with heap := s.heap.freeAll ((List.range (i + k)).flatMap s.chain) }) := by
  intro k
  induction k with
  | zero => exact fun i _ => rfl
  | succ k ih =>
    intro i hi
    have hib : i < s.set.buckets.len := by omega
    have hrun := run_dropChain (t := t) (s := s) n (s.chain i)
      (s.heap.freeAll ((List.range i).flatMap s.chain)) (.head i) (hc.seg i hib) (fun a ha => by
        -- no node is on two chains
        have hout : a ∉ (List.range i).flatMap s.chain := by
          intro hm
          obtain ⟨j, hj, haj⟩ := List.mem_flatMap.mp hm
          have hji := List.mem_range.mp hj
          have := hc.once j i (by omega) hib a haj ha
          omega
        rw [Heap.freeAll_get_of_not_mem hout, Heap.freeAll_has]
        exact ⟨⟨hc.has i hib a ha, hout⟩, rfl⟩)
      (hc.nodup hib) (Nat.lt_of_le_of_lt (hc.length_le hib) hn)
    rw [← Heap.freeAll_append] at hrun
    have hstep : (List.range i).flatMap s.chain ++ s.chain i = (List.range (i + 1)).flatMap s.chain := by
      simp [List.range_succ]
    rw [hstep] at hrun
    have hrest := ih (i + 1) (by omega)
    rw [show i + 1 + k = i + (k + 1) by omega] at hrest
    exact (run_bind_ok hrun).trans hrest

/-- **`drop`** frees the nodes of the table. -/
theorem run_drop (hc : Chains s.set.buckets s.heap s.chain) (hn : s.heap.brk < n) :
    run (Store.exec t) (LockFreeSet.drop s.set.buckets n) s =
      .ok ((), { s with heap := s.heap.freeAll s.nodes }) := by
  have h := run_dropBuckets (t := t) hc hn s.set.buckets.len 0 (Nat.zero_add _)
  rw [Nat.zero_add] at h
  exact h

end Store

/-! ## A manager goes, the others stay -/

namespace World

/-- In `w'` manager `m` of `w` is gone, and its nodes with it. -/
structure Gone (m : Nat) (w w' : World) : Prop where
  made : w'.made = Function.update w.made m false
  mgr : w'.mgr = w.mgr
  freeId : w'.freeId = w.freeId
  freed : ∀ a, (w.store m).Live a → w'.heap.cell a = none ∧ w'.heap.frees a = w.heap.frees a + 1
  cell : ∀ a, ¬ (w.store m).Live a → w'.heap.cell a = w.heap.cell a
  frees : ∀ a, ¬ (w.store m).Live a → w'.heap.frees a = w.heap.frees a

variable {w w' : World} {m k : Nat}

/-- The nodes of such a manager. -/
theorem Sound.same (h : w.Sound k) (hmgr : w'.mgr k = w.mgr k)
    (hcell : ∀ a, (w.store k).Live a → w'.heap.cell a = w.heap.cell a) :
    (w'.store k).Inv ∧ ∀ a, (w'.store k).Live a ↔ (w.store k).Live a := by
  have hset : (w'.store k).set = (w.store k).set := congrArg Manager.set hmgr
  obtain ⟨hinv, hch⟩ := h.inv.congr (u := w'.store k) (by rw [hset]) (by rw [hset]) (by rw [hset])
    (by rw [hset]) fun a ha => recounted_of_cell (h.inv.table.has ha) (hcell a ha)
  exact ⟨hinv, Store.live_congr (s := w.store k) (u := w'.store k) (by rw [hset]) hch⟩

/-- A manager whose record and nodes are the same in both states. -/
theorem Sound.congr (h : w.Sound k) (hmgr : w'.mgr k = w.mgr k) (hfree : w'.freeId = w.freeId)
    (hcell : ∀ a, (w.store k).Live a → w'.heap.cell a = w.heap.cell a) : w'.Sound k := by
  have hset : (w'.store k).set = (w.store k).set := congrArg Manager.set hmgr
  have hcon : w'.consts k = w.consts k := congrArg Manager.toConsts hmgr
  have hhas : ∀ a, (w.store k).Live a → (w'.heap.Has a ↔ w.heap.Has a) := by
    intro a ha
    unfold Heap.Has
    rw [hcell a ha]
  have hget : ∀ a, (w.store k).Live a → w'.heap.get a = w.heap.get a := by
    intro a ha
    unfold Heap.get
    rw [hcell a ha]
  obtain ⟨hinv, hlive⟩ := h.same hmgr hcell
  -- the nodes stand for what they stood for
  have hstands : ∀ a f, (w.consts k).Stands (w.store k) a f →
      (w.consts k).Stands (w'.store k) a f := by
    rintro a f ⟨ha, hf⟩
    refine ⟨(hlive a).mpr ha, hf.congr h.reduced.closed rfl rfl (fun b hb hn => ?_) ha⟩
    show (w'.heap.Has b ∧ _) ∧ (w'.heap.get b).lvl = _ ∧ (w'.heap.get b).low = _ ∧
      (w'.heap.get b).high = _
    rw [hget b hb, hhas b hb]
    exact ⟨hn, rfl, rfl, rfl⟩
  refine ⟨hinv, ?_, ?_, ?_, fun a ha => ?_, ?_, fun t ht => ?_⟩
  · rw [hmgr, h.owed]
  · have := h.sized
    unfold Store.Sized at this ⊢
    rw [hset, this]
  · rw [hcon]
    have hp := h.reduced.toProper
    refine h.reduced.part (fun a ha => (hlive a).mp ha) (fun a ha hn => ?_) rfl rfl
      ⟨hp.top_ne_bot, fun hn => hn.2.1 rfl, fun hn => hn.2.2 rfl⟩ fun a ha => ?_
    · obtain ⟨h1, h2⟩ := h.reduced.closed a ((hlive a).mp ha) hn
      exact ⟨(hlive _).mpr h1, (hlive _).mpr h2⟩
    · have hla := (hlive a).mp ha
      show (w'.heap.Has a ∧ _ ↔ w.heap.Has a ∧ _) ∧ (w'.heap.get a).lvl = _ ∧
        (w'.heap.get a).low = _ ∧ (w'.heap.get a).high = _
      rw [hget a hla, hhas a hla]
      exact ⟨Iff.rfl, rfl, rfl, rfl⟩
  · have hla := (hlive a).mp ha
    rw [hget a hla]
    exact h.unmarked a hla
  · rw [hmgr]
    refine { h.caches with
      notSound := h.caches.notSound.mono ?_
      sound := fun c => (h.caches.sound c).mono ?_ }
    · rintro a b ⟨f, h1, h2⟩
      exact ⟨f, hstands a f h1, hstands b _ h2⟩
    · rintro p b ⟨op, hop, f, f', h1, h2, h3⟩
      exact ⟨op, hop, f, f', hstands _ f h1, hstands _ f' h2, hstands b _ h3⟩
  · rw [hfree] at ht
    exact h.scratch t ((hlive _).mp ht)

end World

namespace Manager

open World

variable {w w' : World} {m t n : Nat}

/-- **A manager goes out of scope.** -/
theorem drop_ok (hc : Chains (w.mgr m).set.buckets w.heap (w.store m).chain) (hn : w.heap.brk < n) :
    ∃ w', Manager.drop m t n w = .ok w' ∧ Gone m w w' := by
  have hrun := Store.run_drop (s := w.store m) (t := t) hc hn
  have hnd := Store.nodes_nodup (s := w.store m) hc
  refine ⟨{ w.put m { w.store m with heap := w.heap.freeAll (w.store m).nodes } with
    made := Function.update w.made m false }, ?_, rfl, ?_, rfl, fun a ha => ⟨?_, ?_⟩, fun a ha => ?_,
    fun a ha => ?_⟩
  · unfold Manager.drop
    show (match run (Store.exec t) (LockFreeSet.drop (w.store m).set.buckets n) (w.store m) with
      | .ok (_, s) => _
      | .error e => _) = _
    rw [hrun]
    rfl
  · show Function.update w.mgr m { w.mgr m with set := (w.mgr m).set } = w.mgr
    simp
  · exact Heap.freeAll_cell_of_mem (Store.mem_nodes.mpr ha)
  · show (w.heap.freeAll (w.store m).nodes).frees a = _
    rw [Heap.freeAll_frees, List.count_eq_one_of_mem hnd (Store.mem_nodes.mpr ha)]
  · exact Heap.freeAll_cell_of_not_mem fun h => ha (Store.mem_nodes.mp h)
  · show (w.heap.freeAll (w.store m).nodes).frees a = _
    rw [Heap.freeAll_frees, List.count_eq_zero.mpr fun h => ha (Store.mem_nodes.mp h)]
    rfl

end Manager

end Tobdd
