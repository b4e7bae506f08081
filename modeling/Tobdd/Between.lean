import Tobdd.Sessions

/-!
# What holds between calls

Three readings of `Sound`, for every state that a run of a thread reaches:

    Reach.canonicity: handles are equal if and only if they stand for the same function
    Reach.memo_tables_sound: what the memo tables hold is true, also right after `enter_op`
    Reach.chains_ordered: the chains of the unique table are in order
-/

namespace Tobdd

open Resume Diagram Linked

namespace World

/-- The nodes of manager `m` are a reduced ordered diagram. -/
structure Canonical (w : World) (m : Nat) : Prop where
  /-- every node stands for one function -/
  stands : ∀ a, (w.store m).Live a → ∃ f, w.Stands m a f ∧ ∀ f', w.Stands m a f' → f' = f
  eq_iff : ∀ a b f f', w.Stands m a f → w.Stands m b f' → (a = b ↔ f = f')
  level : ∀ a, (w.store m).Live a → a ≠ (w.consts m).trueId → a ≠ (w.consts m).falseId →
    (w.heap.get a).level.toNat < (w.consts m).numVars
  ne : ∀ a, (w.store m).Live a → a ≠ (w.consts m).trueId → a ≠ (w.consts m).falseId →
    (w.heap.get a).low ≠ (w.heap.get a).high
  children : ∀ a, (w.store m).Live a → a ≠ (w.consts m).trueId → a ≠ (w.consts m).falseId →
    ∀ c, c = (w.heap.get a).low ∨ c = (w.heap.get a).high → (w.store m).Live c ∧
      (c ≠ (w.consts m).trueId → c ≠ (w.consts m).falseId →
        (w.heap.get a).level < (w.heap.get c).level)
  unique : ∀ a b, (w.store m).Live a → (w.store m).Live b →
    (w.heap.get a).level = (w.heap.get b).level → (w.heap.get a).low = (w.heap.get b).low →
    (w.heap.get a).high = (w.heap.get b).high → a = b

/-- Every pair in a memo table of manager `m` is the default pair, or made of nodes of the
table, of which the last stands for the operation on what the others stand for. -/
def MemoSound (w : World) (m : Nat) : Prop :=
  (w.mgr m).notCache.Sound ((w.consts m).NotEntry (w.store m)) ∧
    ∀ c, ((w.mgr m).cache c).Sound ((w.consts m).Entry (w.store m) c)

/-- The chains of the table of manager `m` are in order. -/
structure Represented (w : World) (m : Nat) : Prop where
  len : (w.store m).set.buckets.len = shl64 (w.store m).set.sizeExp
  ends : ∀ i, i < (w.store m).set.buckets.len →
    Seg Place.next (w.store m).ld (.head i) ((w.store m).chain i) 0
  sorted : ∀ i, i < (w.store m).set.buckets.len →
    ((w.store m).chain i).Pairwise fun a b => (w.store m).key a < (w.store m).key b
  home : ∀ i, i < (w.store m).set.buckets.len → ∀ a ∈ (w.store m).chain i,
    (w.heap.get a).hash = splitmix64_3 (w.heap.get a).level (addr (w.heap.get a).low)
      (addr (w.heap.get a).high) ∧ (w.heap.get a).hash.toNat % shl64 (w.store m).set.sizeExp = i
  unmarked : ∀ a, (w.store m).Live a → (w.heap.get a).level &&& MARK = 0
  count : (w.store m).set.numEntry = (w.store m).nodes.length ∧ (w.store m).nodes.Nodup
  scratch : ∀ t, ¬ (w.store m).Live (w.freeId t)

namespace Sound

variable {w : World} {m : Nat} {a b : Bdd} {f f' : BoolFn}

theorem lvl (h : w.Sound m) (ha : (w.store m).Live a) :
    (w.heap.get a).lvl = (w.heap.get a).level.toNat := by
  unfold Node.lvl
  rw [unmark_of_not_marked (by simpa [Node.Marked] using h.unmarked a ha)]

/-- A node that is not a constant. -/
theorem inner (h : w.Sound m) (ha : (w.store m).Live a) (hT : a ≠ (w.consts m).trueId)
    (hF : a ≠ (w.consts m).falseId) : ((w.consts m).graph w.heap).node a :=
  ⟨h.inv.table.has ha, hT, hF⟩

theorem canonical (h : w.Sound m) : w.Canonical m := by
  have hr := h.reduced
  have hone : ∀ {a f f'}, w.Stands m a f → w.Stands m a f' → f = f' := fun h1 h2 =>
    Diagram.Denotes.functional hr.toProper h1.2 h2.2
  refine ⟨fun a ha => ?_, fun a b f f' ha hb => ?_, fun a ha hT hF => ?_, fun a ha hT hF => ?_,
    fun a ha hT hF c hc => ?_, fun a b ha hb h1 h2 h3 => ?_⟩
  · obtain ⟨f, hf, -⟩ := hr.toOrdered.denotes (l := 0) ha fun _ => Nat.zero_le _
    exact ⟨f, ⟨ha, hf⟩, fun f' hf' => hone hf' ⟨ha, hf⟩⟩
  · constructor
    · rintro rfl
      exact hone ha hb
    · rintro rfl
      exact hr.canonical ha.1 hb.1 ha.2 hb.2
  · rw [← h.lvl ha]
    exact hr.bound a ha (h.inner ha hT hF)
  · exact hr.ne a ha (h.inner ha hT hF)
  · have hn := h.inner ha hT hF
    obtain ⟨hl, hh⟩ := hr.closed a ha hn
    obtain ⟨hbl, hbh⟩ := hr.below a ha hn
    have hcl : (w.store m).Live c := hc.elim (fun h => h ▸ hl) fun h => h ▸ hh
    have hb : ((w.consts m).graph w.heap).Below (w.heap.get a).lvl c :=
      hc.elim (fun h => h ▸ hbl) fun h => h ▸ hbh
    refine ⟨hcl, fun hcT hcF => ?_⟩
    rcases hb with hb | hb | hb
    · exact absurd hb hcT
    · exact absurd hb hcF
    · have hlt : (w.heap.get a).lvl < (w.heap.get c).lvl := hb
      rw [h.lvl ha, h.lvl hcl] at hlt
      exact hlt
  · exact h.inv.table.unique ha hb (Node.key_eq_iff.mpr ⟨h1, h2, h3⟩)

theorem memoSound (h : w.Sound m) : w.MemoSound m := ⟨h.caches.notSound, h.caches.sound⟩

theorem represented (h : w.Sound m) : w.Represented m := by
  have ht := h.inv.table
  have howed : (w.store m).set.owed = [] := h.owed
  have hcount := h.inv.counted
  unfold Store.Counted at hcount
  rw [howed] at hcount
  refine ⟨h.sized, fun i hi => ?_, ht.sorted, fun i hi a ha => ?_, fun a ha => ?_,
    ⟨hcount, Store.nodes_nodup ht.chains⟩, h.scratch⟩
  · rw [Store.ld_eq]
    exact ht.chains.seg i hi
  · obtain ⟨h1, h2⟩ := ht.home i hi a ha
    rw [mask_toNat] at h2
    exact ⟨h1, h2⟩
  · simpa [Node.Marked] using h.unmarked a ha

end Sound

end World

namespace Manager

open World

variable {t m : Nat} {w : World}

/-- **Canonicity.**  In every state a run reaches, two handles of a manager are the same pointer
if and only if they stand for the same function. -/
theorem Reach.canonicity (h : Reach t w) (hm : w.made m = true) : w.Canonical m :=
  (h.sound hm).canonical

theorem Reach.canonicity_errand : (errandStates 5).world.Canonical 0 := by
  obtain ⟨hr, -, hm⟩ := errand_reach (Nat.le_refl 5)
  exact Reach.canonicity hr hm

/-- Where the constants were freed, the table of manager 0 gets a node whose children are not in
it. -/
theorem not_canonicity : ∃ w, Called 0 w ∧ w.made 0 = true ∧ ¬ w.Canonical 0 := by
  refine ⟨astray, astray_called.1, by decide +kernel, fun h => ?_⟩
  have hlive : (astray.store 0).Live 5 := by decide +kernel
  have hlow : ¬ (astray.store 0).Live (astray.heap.get 5).low := by decide +kernel
  exact hlow (h.children 5 hlive (by decide +kernel) (by decide +kernel) _ (Or.inl rfl)).1

/-- What `enter_op` leaves, in any state: nothing has happened, or the memo tables are empty. -/
theorem Entered.memoSound {w₁ w' : World} (h : Entered m t w w₁ w') (hw : w.MemoSound m) :
    w'.MemoSound m := by
  have hmemo : w₁.MemoSound m := by
    rcases h.entering.cleaned with rfl | ⟨d, -, hc⟩
    · exact hw
    · exact ⟨hc.notEmpty.sound _, fun c => (hc.empty c).sound _⟩
  rw [h.eq]
  unfold MemoSound
  rw [withLock_mgr, withLock_store, withLock_consts]
  exact hmemo

/-- **What the memo tables hold is true** in every state a run reaches, and also when `enter_op`
has collected or grown. -/
theorem Reach.memo_tables_sound (h : Reach t w) (hm : w.made m = true) : w.MemoSound m ∧
    (w.Whole → ∀ n w', run (exec m t) (enterOp n) w = .ok ((), w') → w'.MemoSound m) := by
  have hs := (h.sound hm).memoSound
  refine ⟨hs, fun hw n w' hrun => ?_⟩
  have hi := h.resting hw
  rcases run_enterOp hi.inv hm (hi.idle m hm) t n with ⟨w₁, w₂, he, hent⟩ | ⟨e, he, -⟩
  · obtain rfl := (Prod.mk.inj (Except.ok.inj (he.symm.trans hrun))).2
    exact hent.memoSound hs
  · cases he.symm.trans hrun

/-- The conjunction was computed again after a collection, and is in its memo table. -/
theorem Reach.memo_tables_sound_errand : (errandStates 5).world.MemoSound 0 ∧
    (∀ n w', run (exec 0 0) (enterOp n) (errandStates 5).world = .ok ((), w') → w'.MemoSound 0) ∧
    (((errandStates 5).world.mgr 0).cache .and).get (splitmix64_2 (addr x0) (addr x1)) (x0, x1) =
      .ok both := by
  obtain ⟨hr, hw, hm⟩ := errand_reach (Nat.le_refl 5)
  obtain ⟨hs, henter⟩ := Reach.memo_tables_sound hr hm
  exact ⟨hs, henter hw, by decide +kernel⟩

/-- **The unique tables are in order** in every state a run reaches, and a node keeps its key
until it is freed. -/
theorem Reach.chains_ordered (h : Reach t w) (hm : w.made m = true) : w.Represented m ∧
    ∀ w', Run t w w' → ∀ a, (w.store m).Live a → w'.heap.frees a = w.heap.frees a →
      (w'.store m).Live a ∧ (w'.heap.get a).level = (w.heap.get a).level ∧
      (w'.heap.get a).low = (w.heap.get a).low ∧ (w'.heap.get a).high = (w.heap.get a).high := by
  refine ⟨(h.sound hm).represented, fun w' hr a ha hf => ?_⟩
  obtain ⟨-, hon⟩ := hr.settled h.settled
  have hnode := hon.node m a hm ha hf
  exact ⟨hon.live m a hm ha hf, hnode.level, hnode.low, hnode.high⟩

theorem Reach.chains_ordered_errand : (errandStates 4).world.Represented 0 := by
  obtain ⟨hr, -, hm⟩ := errand_reach (by decide : 4 ≤ 5)
  exact (Reach.chains_ordered hr hm).1

/-- The collection after that counts two nodes of manager 1, and leaves them marked. -/
theorem not_chains_ordered : ∃ w, Called 0 w ∧ w.made 0 = true ∧ w.made 1 = true ∧
    ¬ w.Represented 0 ∧ ¬ w.Represented 1 := by
  refine ⟨astrayGc, astray_called.2, by decide +kernel, by decide +kernel, fun h => ?_, fun h => ?_⟩
  · have hcount : (astrayGc.store 0).set.numEntry ≠ (astrayGc.store 0).nodes.length := by
      decide +kernel
    exact hcount h.count.1
  · have hlive : (astrayGc.store 1).Live 1 := by decide +kernel
    have hmark : (astrayGc.heap.get 1).level &&& MARK ≠ 0 := by decide +kernel
    exact hmark (h.unmarked 1 hlive)

end Manager

end Tobdd
