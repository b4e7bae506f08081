import Tobdd.Insert

/-!
# `make_node`, alone

The scratch node of the thread is filled in and offered to `get_or_insert`; it becomes a
node of the table, and a new scratch node is allocated, unless the table has a node with
its key.

    run_makeNode: `make_node(level, low, high)` answers a linked node with this key; the
                  nodes linked before stay, and the scratch node is linked nowhere
-/

namespace Tobdd.Store

open Resume

/-- The scratch node of `t`, where it has one: allocated, not linked, never referenced. -/
def ScratchOk (s : Store) (t : Nat) : Prop :=
  s.freeId t ≠ 0 → s.heap.Has (s.freeId t) ∧ (s.heap.get (s.freeId t)).refCnt = 0 ∧
    ¬ s.Live (s.freeId t)

/-- What `make_node` of thread `t` does to the table when it answers `r`. -/
structure Made (t : Nat) (key : Key) (s : Store) (r : Bdd) (s' : Store) : Prop where
  inv : s'.Inv
  owed : s'.set.owed = []
  grows : s.Grows s'
  live : ∀ a, s'.Live a → s.Live a ∨ a = r
  result : s'.Live r
  key : s'.key r = key
  new : ¬ s.Live r → (s'.heap.get r).refCnt = 0
  origin : s.Live r ∨ r = s.freeId t ∨ ¬ s.heap.Has r
  cell : ∀ a, s.heap.Has a → ¬ s.Live a → a ≠ s.freeId t → s'.heap.cell a = s.heap.cell a
  has : ∀ a, s.heap.Has a → s'.heap.Has a
  scratch : s'.ScratchOk t
  next : s'.freeId t = s.freeId t ∨ ¬ s.heap.Has (s'.freeId t)
  others : ∀ u, u ≠ t → s'.freeId u = s.freeId u
  frees : s'.heap.frees = s.heap.frees
  refs : ∀ a, (s'.heap.get a).refCnt = (s.heap.get a).refCnt

/-! ## Small steps -/

theorem run_acc {t : Nat} {o : Access} {s s' : Store} {r : mem.Res o} {β : Type}
    {f : mem.Res o → Prog mem β} (h : Store.exec t o s = .ok (r, s')) :
    run (Store.exec t) (acc o >>= f) s = run (Store.exec t) (f r) s' := run_step_ok h

/-- The scratch node is there, and nothing else has changed. -/
structure Scratched (t : Nat) (s : Store) (p : Bdd) (s' : Store) : Prop where
  set : s'.set = s.set
  frees : s'.heap.frees = s.heap.frees
  own : s'.freeId t = p
  others : ∀ u, u ≠ t → s'.freeId u = s.freeId u
  has : s'.heap.Has p
  refCnt : (s'.heap.get p).refCnt = 0
  fresh : ¬ s.Live p
  origin : p = s.freeId t ∨ ¬ s.heap.Has p
  cell : ∀ a, a ≠ p → s'.heap.cell a = s.heap.cell a

theorem run_scratch {t : Nat} {s : Store} (h : s.Table) (hs : s.ScratchOk t) :
    ∃ p s', run (Store.exec t) scratch s = .ok (p, s') ∧ Scratched t s p s' := by
  have hrun : run (Store.exec t) scratch s = _ :=
    run_acc (o := .freeId) (r := s.freeId t) rfl
  by_cases h0 : s.freeId t = 0
  · rw [if_pos h0] at hrun
    refine ⟨s.heap.fresh, { s with
      heap := s.heap.alloc (Node.new 0), freeId := Function.update s.freeId t s.heap.fresh },
      hrun.trans ?_, ?_⟩
    · refine (run_acc (o := .alloc (Node.new 0)) (r := s.heap.fresh) rfl).trans ?_
      exact run_acc (o := .setFreeId s.heap.fresh) (r := ()) rfl
    · refine ⟨rfl, rfl, Function.update_self _ _ _, fun u hu => Function.update_of_ne hu _ _,
        ⟨_, Heap.alloc_cell_self⟩, ?_, fun hl => (h.has hl).ne_fresh rfl,
        Or.inr s.heap.fresh_not_has, fun a ha => Heap.alloc_cell_of_ne ha⟩
      rw [Heap.get_of_cell Heap.alloc_cell_self]
      rfl
  · rw [if_neg h0] at hrun
    obtain ⟨h1, h2, h3⟩ := hs h0
    exact ⟨s.freeId t, s, hrun, rfl, rfl, rfl, fun _ _ => rfl, h1, h2, h3, Or.inl rfl,
      fun _ _ => rfl⟩

/-- The fields of the scratch node are written. -/
theorem run_fill {t : Nat} {s : Store} {p : Bdd} (hp : s.heap.Has p) (level : UInt64)
    (low high : Bdd) {β : Type} (f : Prog mem β) :
    ∃ s', run (Store.exec t) (do
        let _ : Unit ← acc (.setLevel p level)
        let _ : Unit ← acc (.setLow p low)
        let _ : Unit ← acc (.setHigh p high)
        let _ : Unit ← acc (.rehash p)
        f) s = run (Store.exec t) f s' ∧
      s'.set = s.set ∧ s'.freeId = s.freeId ∧ s'.heap.frees = s.heap.frees ∧
      (∀ a, s'.heap.Has a ↔ s.heap.Has a) ∧ (∀ a, a ≠ p → s'.heap.cell a = s.heap.cell a) ∧
      s'.heap.get p = { s.heap.get p with
        level := level, low := low, high := high
        hash := splitmix64_3 level (addr low) (addr high) } := by
  let h₁ := s.heap.modify p fun n => { n with level := level }
  let h₂ := h₁.modify p fun n => { n with low := low }
  let h₃ := h₂.modify p fun n => { n with high := high }
  have hp1 : h₁.Has p := Heap.modify_has.mpr hp
  have hp2 : h₂.Has p := Heap.modify_has.mpr hp1
  have hp3 : h₃.Has p := Heap.modify_has.mpr hp2
  refine ⟨{ s with heap := h₃.modify p Node.rehash }, ?_, rfl, rfl, rfl, fun a => ?_,
    fun a ha => ?_, ?_⟩
  · refine (run_acc (o := .setLevel p level) (exec_edit hp)).trans ?_
    refine (run_acc (o := .setLow p low) (exec_edit hp1)).trans ?_
    refine (run_acc (o := .setHigh p high) (exec_edit hp2)).trans ?_
    exact run_acc (o := .rehash p) (exec_edit hp3)
  · exact Heap.modify_has.trans (Heap.modify_has.trans (Heap.modify_has.trans Heap.modify_has))
  · exact (Heap.modify_cell_of_ne ha).trans ((Heap.modify_cell_of_ne ha).trans
      ((Heap.modify_cell_of_ne ha).trans (Heap.modify_cell_of_ne ha)))
  · show (h₃.modify p Node.rehash).get p = _
    rw [Heap.modify_get_self hp3, Heap.modify_get_self hp2, Heap.modify_get_self hp1,
      Heap.modify_get_self hp]
    rfl

/-! ## Insertion, alone -/

/-- The logic of an insert with nobody else about. -/
def insertAlone (t : Nat) (p : Bdd) (tol : Prop) : Logic mem Store :=
  .alone (Store.exec t) (fun s s' => s.Inv → Inserted t p s s')
    fun e s => e = .spin ∧ tol ∨ e = .panic ∧ ¬ s.Sized

theorem inserting_alone (t : Nat) (p : Bdd) (tol : Prop) :
    Inserting (insertAlone t p tol) t p tol where
  exec := rfl
  safe _ _ := trivial
  rely s s' h hr := by
    obtain rfl : s = s' := hr
    exact .refl h
  guar _ _ _ h _ := h
  spin h _ := Or.inl ⟨rfl, h⟩
  panic _ h := Or.inr ⟨rfl, h⟩
  calm := Or.inr fun _ _ h => Eq.symm h

theorem run_getOrInsert {t : Nat} {p : Bdd} {i n : Nat} {k : Key} {s : Store} {tol : Prop}
    (h : Ready t p i k s) (hn : tol ∨ Short s i n) :
    (∃ r s', run (Store.exec t) (LockFreeSet.getOrInsert p n) s = .ok (r, s') ∧
      InsertOk t p k r s' ∧ Inserted t p s s') ∨
    ∃ e, run (Store.exec t) (LockFreeSet.getOrInsert p n) s = .error e ∧
      (e = .spin ∧ tol ∨ e = .panic ∧ ¬ s.Sized) := by
  rcases wp_run (fun s hs => Inserted.refl hs) (fun a b c h1 h2 ha =>
      (h1 ha).trans (h2 (h1 ha).inv)) (wp_getOrInsert (inserting_alone t p tol) n s h hn) with
    ⟨r, s', hr, hq, hg⟩ | ⟨e, s', hr, hs, hg⟩
  · exact Or.inl ⟨r, s', hr, hq, hg h.inv⟩
  · refine Or.inr ⟨e, hr, hs.imp_right (And.imp_right fun hs hsz => hs ?_)⟩
    have hgr := (hg h.inv).grows
    unfold Sized at hsz ⊢
    rw [hgr.len, hgr.sizeExp, hsz]

/-- **`make_node`.** -/
theorem run_makeNode (level : UInt64) {t : Nat} {s : Store} {low high : Bdd} (h : s.Inv)
    (ho : s.set.owed = []) (hs : s.ScratchOk t) (hne : low ≠ high) {n : Nat}
    (hn : s.heap.brk + 1 < n) :
    (∃ r s', run (Store.exec t) (makeNode level low high n) s = .ok (r, s') ∧
      Made t (Node.from' level low high).key s r s') ∨
    (run (Store.exec t) (makeNode level low high n) s = .error .panic ∧ ¬ s.Sized) := by
  obtain ⟨p, s₁, hr1, h1⟩ := run_scratch h.table hs
  obtain ⟨s₂, hr2, hset2, hfree2, hfrees2, hhas2, hcell2, hget2⟩ :=
    run_fill (t := t) h1.has level low high (do
      let r ← LockFreeSet.getOrInsert p n
      if r.2 then do
        let free : Bdd ← acc (.alloc (Node.new 0))
        let _ : Unit ← acc (.setFreeId free)
        return p
      else return r.1)
  have hrun : run (Store.exec t) (makeNode level low high n) s =
      run (Store.exec t) (do
        let r ← LockFreeSet.getOrInsert p n
        if r.2 then do
          let free : Bdd ← acc (.alloc (Node.new 0))
          let _ : Unit ← acc (.setFreeId free)
          return p
        else return r.1) s₂ := by
    unfold makeNode
    rw [if_neg hne]
    refine (run_bind _ _ _ _).trans ?_
    rw [hr1]
    exact hr2
  -- only the scratch node differs from `s`
  have hcell : ∀ a, a ≠ p → s₂.heap.cell a = s.heap.cell a := fun a ha =>
    (hcell2 a ha).trans (h1.cell a ha)
  have hset : s₂.set = s.set := hset2.trans h1.set
  have hkeep : ∀ a, s.Live a → s₂.heap.cell a = s.heap.cell a := fun a ha =>
    hcell a fun hap => h1.fresh (hap ▸ ha)
  obtain ⟨hinv, hch⟩ := h.congr (u := s₂) (by rw [hset]) (by rw [hset]) (by rw [hset])
    (by rw [hset]) fun a ha => by
      unfold Heap.Has Heap.get
      rw [hkeep a ha]
      exact ⟨h.table.has ha, .refl _⟩
  have hlive := live_congr (s := s) (u := s₂) (by rw [hset]) hch
  have hready : Ready t p (maskIdx (splitmix64_3 level (addr low) (addr high)) s.set.sizeExp)
      (Node.from' level low high).key s₂ := by
    refine ⟨hinv, (hhas2 p).mpr h1.has, fun hl => h1.fresh ((hlive p).mp hl), ?_, ?_, ?_, ?_⟩
    · rw [hget2]
      rfl
    · rw [hget2, hset]
    · show (s₂.heap.get p).key = _
      rw [hget2]
      rfl
    · rw [hset, ho]
      rfl
  have hshort : Short s₂ (maskIdx (splitmix64_3 level (addr low) (addr high)) s.set.sizeExp) n := by
    refine ⟨by omega, fun hi => ?_⟩
    rw [hset] at hi
    rw [hch _ hi]
    have := h.table.length_le hi
    omega
  rcases run_getOrInsert hready (Or.inr hshort : False ∨ _) with
    ⟨⟨r, b⟩, s₃, hr3, hok, hins⟩ | ⟨e, hr3, ⟨-, hf⟩ | ⟨rfl, hsz⟩⟩
  rotate_left
  · exact hf.elim
  · refine Or.inr ⟨?_, fun hs' => hsz ?_⟩
    · rw [hrun]
      refine (run_bind _ _ _ _).trans ?_
      rw [hr3]
    · unfold Sized at hs' ⊢
      rw [hset, hs']
  obtain ⟨hinv3, howed3, hl3, hk3, hb⟩ := hok
  have hcell3 : ∀ a, a ≠ p → ¬ s.Live a → s₃.heap.cell a = s.heap.cell a := fun a hap ha =>
    (hins.cell a (fun hl => ha ((hlive a).mp hl)) hap).trans (hcell a hap)
  have hgrows : s.Grows s₃ := by
    have hg2 : s.Grows s₂ := by
      refine ⟨by rw [hset], by rw [hset], fun j hj => by rw [hch j hj], fun a ha => ?_⟩
      unfold Heap.get
      rw [hkeep a ha]
      exact .refl _
    exact hg2.trans hins.grows
  have hnew3 : ∀ a, s₃.Live a → s.Live a ∨ a = p := fun a ha =>
    (hins.new a ha).imp_left (hlive a).mp
  have howed : s₃.set.owed = [] := List.eq_nil_iff_forall_not_mem.mpr fun u hu => by
    by_cases hut : u = t
    · rw [hut] at hu
      exact absurd hu (List.count_eq_zero.mp howed3)
    · have hc := hins.owed u hut
      rw [hset, ho] at hc
      exact absurd hu (List.count_eq_zero.mp hc)
  have hhas3 : ∀ a, s.heap.Has a → s₃.heap.Has a := by
    intro a ha
    refine (hins.has a).mpr ?_
    by_cases hap : a = p
    · rw [hap]
      exact (hhas2 p).mpr h1.has
    · unfold Heap.Has
      rw [hcell a hap]
      exact ha
  have hp3 : s₃.heap.Has p := (hins.has p).mpr ((hhas2 p).mpr h1.has)
  have hpref : (s₃.heap.get p).refCnt = 0 := by
    rw [hins.scratch.refCnt, hget2]
    exact h1.refCnt
  have hfree3 : s₃.freeId t = p := by rw [hins.freeId, hfree2, h1.own]
  have hothers3 : ∀ u, u ≠ t → s₃.freeId u = s.freeId u := fun u hu => by
    rw [hins.freeId, hfree2, h1.others u hu]
  have hfrees3 : s₃.heap.frees = s.heap.frees := by rw [hins.frees, hfrees2, h1.frees]
  have hps : ∀ a, s.heap.Has a → a ≠ s.freeId t → a ≠ p := by
    rintro a ha hat rfl
    exact h1.origin.elim hat fun hn => hn ha
  have hrefs3 : ∀ a, (s₃.heap.get a).refCnt = (s.heap.get a).refCnt := by
    intro a
    by_cases hap : a = p
    · rw [hap, hpref]
      rcases h1.origin with hpo | hpo
      · exact hpo ▸ (hs (hpo ▸ h1.has.ne_zero)).2.1.symm
      · rw [Heap.get_of_not_has hpo]
        rfl
    · by_cases hal : s.Live a
      · exact (hgrows.node a hal).refCnt
      · unfold Heap.get
        rw [hcell3 a hap hal]
  left
  cases b with
  | false =>
    have hpl : ¬ s₃.Live p := hb
    refine ⟨r, s₃, ?_, hinv3, howed, hgrows, fun a ha => ?_, hl3, hk3, fun hr => ?_, ?_,
      fun a ha hal hat => hcell3 a (hps a ha hat) hal, hhas3, fun _ => ?_, ?_, hothers3, hfrees3, hrefs3⟩
    · rw [hrun]
      refine (run_bind _ _ _ _).trans ?_
      rw [hr3]
      rfl
    · exact (hnew3 a ha).imp_right fun hap => absurd (hap ▸ ha) hpl
    · exact absurd ((hnew3 r hl3).resolve_left hr ▸ hl3) hpl
    · exact Or.inl ((hnew3 r hl3).resolve_right fun hrp => hpl (hrp ▸ hl3))
    · rw [hfree3]
      exact ⟨hp3, hpref, hpl⟩
    · rw [hfree3]
      exact h1.origin
  | true =>
    obtain rfl : r = p := hb
    -- a new scratch node takes the place of the one that was linked
    generalize hs4 : ({ s₃ with
      heap := s₃.heap.alloc (Node.new 0)
      freeId := Function.update s₃.freeId t s₃.heap.fresh } : Store) = s₄
    have hset4 : s₄.set = s₃.set := by rw [← hs4]
    have hc4 : ∀ a, s₃.heap.Has a → s₄.heap.cell a = s₃.heap.cell a := by
      rw [← hs4]
      exact fun a ha => Heap.alloc_cell_of_ne ha.ne_fresh
    have hfree4 : s₄.freeId t = s₃.heap.fresh := by
      rw [← hs4]
      exact Function.update_self _ _ _
    obtain ⟨hinv4, hch4⟩ := hinv3.congr (u := s₄) (by rw [hset4]) (by rw [hset4]) (by rw [hset4])
      (by rw [hset4]) fun a ha => by
        unfold Heap.Has Heap.get
        rw [hc4 a (hinv3.table.has ha)]
        exact ⟨hinv3.table.has ha, .refl _⟩
    have hlive4 := live_congr (s := s₃) (u := s₄) (by rw [hset4]) hch4
    have hg4 : s₃.Grows s₄ := by
      refine ⟨by rw [hset4], by rw [hset4], fun j hj => by rw [hch4 j hj], fun a ha => ?_⟩
      unfold Heap.get
      rw [hc4 a (hinv3.table.has ha)]
      exact .refl _
    refine ⟨r, s₄, ?_, hinv4, by rw [hset4, howed], hgrows.trans hg4,
      fun a ha => hnew3 a ((hlive4 a).mp ha), (hlive4 r).mpr hl3, (hg4.key hl3).trans hk3,
      fun _ => ?_, Or.inr h1.origin, fun a ha hal hat => ?_, fun a ha => ?_, fun _ => ?_, ?_,
      fun u hu => ?_, ?_, fun a => ?_⟩
    · rw [hrun]
      refine (run_bind _ _ _ _).trans ?_
      rw [hr3]
      refine (run_acc (o := .alloc (Node.new 0)) (r := s₃.heap.fresh) rfl).trans ?_
      rw [← hs4]
      exact run_acc (o := .setFreeId s₃.heap.fresh) (r := ()) rfl
    · rw [(hg4.node r hl3).refCnt]
      exact hpref
    · rw [hc4 a (hhas3 a ha)]
      exact hcell3 a (hps a ha hat) hal
    · unfold Heap.Has
      rw [hc4 a (hhas3 a ha)]
      exact hhas3 a ha
    · rw [hfree4]
      have hcf : s₄.heap.cell s₃.heap.fresh = some (Node.new 0) := by
        rw [← hs4]
        exact Heap.alloc_cell_self
      refine ⟨⟨_, hcf⟩, by rw [Heap.get_of_cell hcf]; rfl, fun hl => ?_⟩
      exact (hinv3.table.has ((hlive4 _).mp hl)).ne_fresh rfl
    · rw [hfree4]
      exact Or.inr fun ha => (hhas3 _ ha).ne_fresh rfl
    · rw [← hs4]
      show Function.update s₃.freeId t s₃.heap.fresh u = _
      rw [Function.update_of_ne hu, hothers3 u hu]
    · rw [← hs4]
      exact hfrees3
    · rw [← hrefs3 a]
      by_cases haf : a = s₃.heap.fresh
      · have hcf : s₄.heap.cell s₃.heap.fresh = some (Node.new 0) := by
          rw [← hs4]
          exact Heap.alloc_cell_self
        rw [haf, Heap.get_of_cell hcf, Heap.get_of_not_has s₃.heap.fresh_not_has]
        rfl
      · have : s₄.heap.cell a = s₃.heap.cell a := by
          rw [← hs4]
          exact Heap.alloc_cell_of_ne haf
        unfold Heap.get
        rw [this]

end Tobdd.Store
