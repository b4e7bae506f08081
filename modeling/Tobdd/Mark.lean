import Mathlib.Data.Finset.Card
import Tobdd.Tidy

/-!
# Marking

`mark_nodes` sets the mark in every node that a referenced node reaches; `unmark_nodes`
clears all marks.

`Marks b M s`: of the nodes of the table `b`, those in `M` carry the mark in `s`.

    wp_markNodes: the nodes marked are closed under children; those with references are
                  among them, and each was reached from one that had references at first
-/

namespace Tobdd.Store

open Resume Linked

/-- What the collector needs to know of a table. -/
structure Markable (V : Bdd → Prop) (rank : Bdd → Nat) (b : Store) : Prop where
  has : ∀ a, V a → b.heap.Has a
  closed : ∀ a c, V a → c ≠ 0 → c = (b.heap.get a).low ∨ c = (b.heap.get a).high →
    V c ∧ rank c < rank a
  unmarked : ∀ a, V a → ¬ (b.heap.get a).Marked

variable {V : Bdd → Prop} {rank : Bdd → Nat} {b s : Store} {Z : Bdd → Prop} {t : Nat}
  {tol bad : Prop}

theorem Markable.child (h : Markable V rank b) {a c : Bdd} (ha : V a) (h0 : c ≠ 0)
    (hc : c = (b.heap.get a).low ∨ c = (b.heap.get a).high) : b.heap.Child a c :=
  ⟨h.has a ha, h.has c (h.closed a c ha h0 hc).1, hc⟩

theorem Markable.reaches (h : Markable V rank b) {a c : Bdd} (ha : V a) (hr : b.heap.Reaches a c) :
    V c :=
  hr.mem (fun x y hx hxy => (h.closed x y hx hxy.2.1.ne_zero hxy.2.2).1) ha

/-- The levels when the nodes in `M` are marked. -/
def marked (b : Store) (M : Finset Bdd) (a : Bdd) : UInt64 :=
  if a ∈ M then (b.heap.get a).level ||| MARK else (b.heap.get a).level

theorem marked_empty (b : Store) : b.marked ∅ = fun a => (b.heap.get a).level := by
  funext a
  exact if_neg (Finset.notMem_empty a)

theorem marked_insert {M : Finset Bdd} {a : Bdd} (ha : a ∉ M) :
    Function.update (b.marked M) a (b.marked M a ||| MARK) = b.marked (insert a M) := by
  funext c
  by_cases hc : c = a
  · subst hc
    rw [Function.update_self]
    unfold marked
    rw [if_neg ha, if_pos (Finset.mem_insert_self c M)]
  · rw [Function.update_of_ne hc]
    unfold marked
    simp only [Finset.mem_insert, hc, false_or]

/-- The nodes in `M` are marked. -/
structure Marks (V : Bdd → Prop) (b : Store) (Z : Bdd → Prop) (M : Finset Bdd) (s : Store) :
    Prop where
  leveled : Leveled b Z (b.marked M) s
  sub : ∀ a ∈ M, V a

theorem Marks.drops {s' : Store} {M : Finset Bdd} (h : Marks V b Z M s) (hd : Drops s s') :
    Marks V b Z M s' := ⟨h.leveled.drops hd, h.sub⟩

theorem Markable.marked_iff (hb : Markable V rank b) {M : Finset Bdd} {a : Bdd} (ha : V a) :
    b.marked M a &&& MARK ≠ 0 ↔ a ∈ M := by
  unfold marked
  split
  · next hm => exact ⟨fun _ => hm, fun _ => or_mark_marked _⟩
  · next hm => exact ⟨fun h => absurd h (hb.unmarked a ha), fun h => absurd h hm⟩

/-! ## mark_rec -/

/-- What `mark_rec(root)` adds to the marked nodes `M`. -/
structure Spread (b : Store) (root : Bdd) (M M' : Finset Bdd) : Prop where
  sub : M ⊆ M'
  start : root ∈ M'
  reached : ∀ a ∈ M', a ∉ M → b.heap.Reaches root a
  closed : ∀ a ∈ M', a ∉ M → ∀ c, b.heap.Child a c → c ∈ M'

theorem Spread.of_mem {M : Finset Bdd} {root : Bdd} (h : root ∈ M) : Spread b root M M :=
  ⟨fun _ ha => ha, h, fun _ ha hn => absurd ha hn, fun _ ha hn => absurd ha hn⟩

/-- The node itself, then what its children add. -/
theorem Spread.node {M M₁ M₂ : Finset Bdd} {root low high : Bdd}
    (hlow : low = (b.heap.get root).low) (hhigh : high = (b.heap.get root).high)
    (h1 : M₁ = insert root M ∨ b.heap.Child root low ∧ Spread b low (insert root M) M₁)
    (hl : low ≠ 0 → low ∈ M₁)
    (h2 : M₂ = M₁ ∨ b.heap.Child root high ∧ Spread b high M₁ M₂) (hh : high ≠ 0 → high ∈ M₂) :
    Spread b root M M₂ := by
  have hs1 : insert root M ⊆ M₁ := by
    rcases h1 with rfl | ⟨-, h⟩
    · exact fun _ ha => ha
    · exact h.sub
  have hs2 : M₁ ⊆ M₂ := by
    rcases h2 with rfl | ⟨-, h⟩
    · exact fun _ ha => ha
    · exact h.sub
  -- a node of `M₂` is from the high branch, from the low branch, or the root
  have hcase : ∀ a ∈ M₂, a ∉ M → (a ∉ M₁ ∧ b.heap.Child root high ∧ Spread b high M₁ M₂) ∨
      (a ∈ M₁ ∧ a ∉ insert root M ∧ b.heap.Child root low ∧ Spread b low (insert root M) M₁) ∨
      a = root := by
    intro a ha hn
    by_cases h1a : a ∈ M₁
    · by_cases h0 : a ∈ insert root M
      · exact Or.inr (Or.inr ((Finset.mem_insert.mp h0).resolve_right hn))
      · rcases h1 with rfl | h
        · exact absurd h1a h0
        · exact Or.inr (Or.inl ⟨h1a, h0, h⟩)
    · rcases h2 with rfl | h
      · exact absurd ha h1a
      · exact Or.inl ⟨h1a, h⟩
  refine ⟨fun a ha => hs2 (hs1 (Finset.mem_insert_of_mem ha)),
    hs2 (hs1 (Finset.mem_insert_self _ _)), fun a ha hn => ?_, fun a ha hn c hc => ?_⟩
  · rcases hcase a ha hn with ⟨h1a, hch, h⟩ | ⟨h1a, h0, hch, h⟩ | rfl
    · exact (h.reached a ha h1a).head hch
    · exact (h.reached a h1a h0).head hch
    · exact .refl
  · rcases hcase a ha hn with ⟨h1a, -, h⟩ | ⟨h1a, h0, -, h⟩ | rfl
    · exact h.closed a ha h1a c hc
    · exact hs2 (h.closed a h1a h0 c hc)
    · rcases hc.2.2 with h | h
      · exact hs2 (h ▸ hlow ▸ hl (hlow ▸ h ▸ hc.2.1.ne_zero))
      · exact h ▸ hhigh ▸ hh (hhigh ▸ h ▸ hc.2.1.ne_zero)

theorem wp_markRec (hb : Markable V rank b) : ∀ (n : Nat) (root : Bdd) (M : Finset Bdd) (s : Store),
    Marks V b Z M s → V root → (tol ∨ rank root < n) →
    wp (collecting V t tol bad) (LockFreeSet.markRec n root M.card)
      (fun c s' => ∃ M', c = M'.card ∧ Marks V b Z M' s' ∧ Spread b root M M') s := by
  intro n
  induction n with
  | zero => exact fun root M s _ _ hn => wp_spinLoop (hn.resolve_right (Nat.not_lt_zero _))
  | succ n ih =>
    intro root M s hs hV hn
    have hstable : ∀ N s s', Marks V b Z N s → Drops s s' → Marks V b Z N s' :=
      fun N s s' h hd => h.drops hd
    have hroot := hb.has root hV
    -- a child, where there is one
    have hchild : ∀ (N : Finset Bdd) (child : Bdd) (s : Store), Marks V b Z N s →
        child = (b.heap.get root).low ∨ child = (b.heap.get root).high →
        wp (collecting V t tol bad)
          (if child ≠ 0 then LockFreeSet.markRec n child N.card else pure N.card)
          (fun c s' => ∃ N', c = N'.card ∧ Marks V b Z N' s' ∧ (child ≠ 0 → child ∈ N') ∧
            (N' = N ∨ b.heap.Child root child ∧ Spread b child N N')) s := by
      intro N child s hs hc
      refine wp_ite _ (fun h0 => ?_) fun h0 => ?_
      · obtain ⟨hVc, hr⟩ := hb.closed root child hV h0 hc
        refine wp_mono ?_ (ih child N s hs hVc (hn.imp_right fun h => by omega))
        rintro c s' ⟨N', h1, h2, h3⟩
        exact ⟨N', h1, h2, fun _ => h3.start, Or.inr ⟨hb.child hV h0 hc, h3⟩⟩
      · exact ⟨N, rfl, hs, fun h => absurd h h0, Or.inl rfl⟩
    unfold LockFreeSet.markRec
    refine wp_read (o := .level root) (Marks V b Z M) (hstable M) hs (b.marked M root)
      (fun s' hs' => exec_field ((hs'.leveled.has root).mpr hroot) (hs'.leveled.level root hroot))
      fun s₁ hs1 => ?_
    refine wp_ite _ (fun hm => ?_) fun hm => ?_
    · have hmem := (hb.marked_iff hV).mp hm
      exact ⟨M, rfl, hs1, Spread.of_mem hmem⟩
    have hmem : root ∉ M := fun h => hm ((hb.marked_iff hV).mpr h)
    refine wp_access (o := .mark root) (Marks V b Z M) (hstable M) hs1 () fun s' hs' => ?_
    obtain ⟨hl, ht⟩ := hs'.leveled.setLevel hroot hV (fun l => l ||| MARK) unmark_or_mark
    rw [marked_insert hmem] at hl
    have hs2 : Marks V b Z (insert root M) _ := ⟨hl, fun a ha => by
      rcases Finset.mem_insert.mp ha with rfl | ha
      · exact hV
      · exact hs'.sub a ha⟩
    refine ⟨_, exec_edit ((hs'.leveled.has root).mpr hroot), ht, ?_⟩
    have hcard : M.card + 1 = (insert root M).card := (Finset.card_insert_of_notMem hmem).symm
    refine wp_read (o := .low root) (Marks V b Z (insert root M)) (hstable _) hs2
      (b.heap.get root).low
      (fun s' hs' => exec_field ((hs'.leveled.has root).mpr hroot) (hs'.leveled.low root))
      fun s₃ hs3 => ?_
    refine wp_read (o := .high root) (Marks V b Z (insert root M)) (hstable _) hs3
      (b.heap.get root).high
      (fun s' hs' => exec_field ((hs'.leveled.has root).mpr hroot) (hs'.leveled.high root))
      fun s₄ hs4 => ?_
    show wp _ (_ >>= _) _ _
    rw [hcard]
    refine wp_seq (hchild _ _ s₄ hs4 (Or.inl rfl)) ?_
    rintro c s₅ ⟨M₁, rfl, hs5, hlow, h1⟩
    refine wp_mono ?_ (hchild M₁ _ s₅ hs5 (Or.inr rfl))
    rintro c s₆ ⟨M₂, rfl, hs6, hhigh, h2⟩
    exact ⟨M₂, rfl, hs6, Spread.node rfl rfl h1 hlow h2 hhigh⟩

/-! ## mark_nodes -/

/-- The nodes in `M` are those that the collector of `b` keeps: they are closed under
children, and each is reached from a node that had references at first. -/
structure Survivors (b : Store) (M : Finset Bdd) : Prop where
  live : ∀ a ∈ M, b.Live a
  closed : ∀ a ∈ M, ∀ c, b.heap.Child a c → c ∈ M
  origin : ∀ a ∈ M, ∃ r, b.Live r ∧ (b.heap.get r).refCnt ≠ 0 ∧ b.heap.Reaches r a

/-- The loop of `mark_nodes` has been at the nodes `v`. -/
structure Marking (b : Store) (v : List Bdd) (Z : Bdd → Prop) (M : Finset Bdd) (s : Store) :
    Prop where
  marks : Marks b.Live b Z M s
  survivors : Survivors b M
  zero : ∀ a, (b.heap.get a).refCnt = 0 → Z a
  seen : ∀ a ∈ v, Z a ∨ a ∈ M

theorem Marking.drops {s' : Store} {v : List Bdd} {M : Finset Bdd} (h : Marking b v Z M s)
    (hd : Drops s s') : Marking b v Z M s' := { h with marks := h.marks.drops hd }

theorem Marking.start (b : Store) : Marking b [] (fun a => (b.heap.get a).refCnt = 0) ∅ b where
  marks := ⟨by rw [marked_empty]; exact .self b, fun a ha => absurd ha (Finset.notMem_empty a)⟩
  survivors := ⟨fun a ha => absurd ha (Finset.notMem_empty a),
    fun a ha => absurd ha (Finset.notMem_empty a), fun a ha => absurd ha (Finset.notMem_empty a)⟩
  zero _ h := h
  seen a ha := absurd ha List.not_mem_nil

/-- The node `a` has been looked at. -/
theorem Marking.step {v : List Bdd} {Z' : Bdd → Prop} {M M' : Finset Bdd} {s' : Store} {a : Bdd}
    (h : Marking b v Z M s) (hm : Marks b.Live b Z' M' s') (hs : Survivors b M')
    (hz : ∀ c, Z c → Z' c) (hsub : M ⊆ M') (ha : Z' a ∨ a ∈ M') :
    Marking b (v ++ [a]) Z' M' s' where
  marks := hm
  survivors := hs
  zero c hc := hz c (h.zero c hc)
  seen c hc := by
    rcases List.mem_append.mp hc with hc | hc
    · exact (h.seen c hc).imp (hz c) fun hm => hsub hm
    · exact List.mem_singleton.mp hc ▸ ha

theorem Survivors.spread {M M' : Finset Bdd} {a : Bdd} (h : Survivors b M)
    (hlive : ∀ c ∈ M', b.Live c) (ha : b.Live a) (hr : (b.heap.get a).refCnt ≠ 0)
    (hs : Spread b a M M') : Survivors b M' := by
  refine ⟨hlive, fun c hc d hd => ?_, fun c hc => ?_⟩
  · by_cases hcm : c ∈ M
    · exact hs.sub (h.closed c hcm d hd)
    · exact hs.closed c hc hcm d hd
  · by_cases hcm : c ∈ M
    · exact h.origin c hcm
    · exact ⟨a, ha, hr, hs.reached c hc hcm⟩

theorem wp_markNode (hb : Markable b.Live rank b) {n : Nat} (hn : tol ∨ ∀ a, b.Live a → rank a < n)
    (v : List Bdd) {M : Finset Bdd} {a : Bdd} (ha : b.Live a) (hs : Marking b v Z M s) :
    wp (collecting b.Live t tol bad) (LockFreeSet.markNode n a M.card)
      (fun c s' => ∃ Z' M', c = M'.card ∧ Marking b (v ++ [a]) Z' M' s') s := by
  have hstable : ∀ s s', Marking b v Z M s → Drops s s' → Marking b v Z M s' :=
    fun s s' h hd => h.drops hd
  have hhas := hb.has a ha
  unfold LockFreeSet.markNode
  refine wp_see (o := .refCnt a) (Marking b v Z M) hstable hs fun s₁ hs1 => ?_
  refine ⟨_, exec_look ((hs1.marks.leveled.has a).mpr hhas), ?_⟩
  refine wp_ite _ (fun hr => ?_) fun hr => ?_
  · have hr0 : (b.heap.get a).refCnt ≠ 0 := fun h => hr (hs1.marks.leveled.zero a (hs1.zero a h))
    refine wp_read (o := .level a) (Marking b v Z M) hstable hs1 (b.marked M a)
      (fun s' hs' => exec_field ((hs'.marks.leveled.has a).mpr hhas)
        (hs'.marks.leveled.level a hhas)) fun s₂ hs2 => ?_
    refine wp_ite _ (fun hm => ?_) fun hm => ?_
    · refine wp_mono ?_ (wp_markRec hb n a M s₂ hs2.marks ha (hn.imp_right fun h => h a ha))
      rintro c s₃ ⟨M', rfl, hs3, hsp⟩
      exact ⟨Z, M', rfl, hs2.step hs3 (hs2.survivors.spread hs3.sub ha hr0 hsp) (fun _ h => h)
        hsp.sub (Or.inr hsp.start)⟩
    · have hmem := (hb.marked_iff ha).mp hm
      exact ⟨Z, M, rfl, hs2.step hs2.marks hs2.survivors (fun _ h => h) (fun _ h => h)
        (Or.inr hmem)⟩
  · have hz : (s₁.heap.get a).refCnt = 0 := by
      by_contra h
      exact hr h
    exact ⟨_, M, rfl, hs1.step ⟨hs1.marks.leveled.see hz, hs1.marks.sub⟩ hs1.survivors
      (fun _ h => Or.inl h) (fun _ h => h) (Or.inl (Or.inr rfl))⟩

/-- What `mark_nodes` has done to the table `b` when it answers. -/
structure MarkedNodes (b : Store) (M : Finset Bdd) (s : Store) : Prop where
  marks : Marks b.Live b (fun a => (b.heap.get a).refCnt = 0 ∨ b.Live a ∧ a ∉ M) M s
  survivors : Survivors b M
  numMarks : s.set.numMarks = M.card

theorem MarkedNodes.drops {s' : Store} {M : Finset Bdd} (h : MarkedNodes b M s) (hd : Drops s s') :
    MarkedNodes b M s' :=
  { h with marks := h.marks.drops hd, numMarks := by rw [hd.set, h.numMarks] }

/-- How many rounds the loops need. -/
structure Fuel (b : Store) (rank : Bdd → Nat) (n : Nat) : Prop where
  chain : b.heap.brk < n
  rank : ∀ a, b.Live a → rank a < n

/-- **`mark_nodes`.** -/
theorem wp_markNodes (hc : Chains b.set.buckets b.heap b.chain) (hb : Markable b.Live rank b)
    (hlen : b.set.buckets.len ≤ shl64 b.set.sizeExp) (hbad : ¬ b.Sized → bad) {n : Nat}
    (hn : tol ∨ b.Fuel rank n) :
    wp (collecting b.Live t tol bad) (LockFreeSet.markNodes n)
      (fun c s => ∃ M, c = M.card ∧ MarkedNodes b M s ∧ b.Sized) b := by
  unfold LockFreeSet.markNodes
  have hself : ∀ s, Drops b s → Marking b [] (fun a => (b.heap.get a).refCnt = 0) ∅ s :=
    fun s hd => (Marking.start b).drops hd
  refine wp_read (o := .sizeExp) (Drops b) (fun _ _ => Drops.trans) (.refl b) b.set.sizeExp
    (fun s hs => ?_) fun s hs => ?_
  · rw [← hs.set]
    rfl
  refine wp_seq (wp_eachBucket (x := 0)
    (I := fun v c s => ∃ Z M, c = Finset.card M ∧ Marking b v Z M s) hc ?_ ?_ ?_ hlen hbad
    (hn.imp_right Fuel.chain) ⟨_, ∅, rfl, hself s hs⟩) ?_
  · rintro v c s s' ⟨Z, M, hcard, h⟩ hd
    exact ⟨Z, M, hcard, h.drops hd⟩
  · rintro v c s ⟨Z, M, hcard, h⟩
    exact ⟨Z, _, h.marks.leveled⟩
  · rintro v c s a ha ⟨Z, M, rfl, h⟩
    exact wp_markNode hb (hn.imp_right Fuel.rank) v ha h
  · rintro c s' ⟨⟨Z, M, rfl, h⟩, hsz⟩
    have hdone : Marks b.Live b (fun a => (b.heap.get a).refCnt = 0 ∨ b.Live a ∧ a ∉ M) M s' := by
      refine ⟨{ h.marks.leveled with zero := fun a ha => h.marks.leveled.zero a ?_ }, h.marks.sub⟩
      rcases ha with ha | ⟨ha, hm⟩
      · exact h.zero a ha
      · exact (h.seen a (mem_nodes.mpr ha)).resolve_right hm
    refine wp_access (o := .setMarks M.card) (Marks b.Live b _ M) (fun s s' h hd => h.drops hd)
      hdone () fun s'' hs'' => ?_
    refine ⟨{ s'' with set := { s''.set with numMarks := M.card } }, rfl, .of_heap rfl rfl, M, rfl,
      ⟨?_, h.survivors, rfl⟩, hsz⟩
    exact ⟨{ hs''.leveled with
      buckets := hs''.leveled.buckets, sizeExp := hs''.leveled.sizeExp
      numEntry := hs''.leveled.numEntry, owed := hs''.leveled.owed }, hs''.sub⟩

/-! ## unmark_nodes -/

/-- The levels when the marks of the nodes `v` are cleared. -/
def cleared (b : Store) (v : List Bdd) (a : Bdd) : UInt64 :=
  if a ∈ v then unmark (b.heap.get a).level else (b.heap.get a).level

theorem cleared_concat (v : List Bdd) (a : Bdd) :
    Function.update (b.cleared v) a (unmark (b.cleared v a)) = b.cleared (v ++ [a]) := by
  funext c
  unfold cleared
  by_cases hc : c = a
  · subst hc
    rw [Function.update_self, if_pos (List.mem_append_right _ (List.mem_singleton.mpr rfl))]
    split
    · exact unmark_unmark _
    · rfl
  · rw [Function.update_of_ne hc]
    simp only [List.mem_append, List.mem_singleton, hc, or_false]

theorem wp_unmarkNode (hhas : ∀ a, b.Live a → b.heap.Has a) (hV : ∀ a, b.Live a → V a)
    (v : List Bdd) {a : Bdd} (ha : b.Live a) (hs : Leveled b Z (b.cleared v) s) :
    wp (collecting V t tol bad) (LockFreeSet.unmarkNode a ())
      (fun _ s' => Leveled b Z (b.cleared (v ++ [a])) s') s := by
  have hstable : ∀ s s', Leveled b Z (b.cleared v) s → Drops s s' → Leveled b Z (b.cleared v) s' :=
    fun s s' h hd => h.drops hd
  unfold LockFreeSet.unmarkNode
  refine wp_read (o := .level a) _ hstable hs (b.cleared v a)
    (fun s' hs' => exec_field ((hs'.has a).mpr (hhas a ha)) (hs'.level a (hhas a ha)))
    fun s₁ hs1 => ?_
  refine wp_ite _ (fun hm => ?_) fun hm => ?_
  · intro s₂ hd
    have hs2 := hs1.drops hd
    obtain ⟨hl, ht⟩ := hs2.setLevel (hhas a ha) (hV a ha) Tobdd.unmark unmark_unmark
    rw [cleared_concat] at hl
    exact Logic.Does.of_ok trivial (exec_edit ((hs2.has a).mpr (hhas a ha))) fun _ => ⟨ht, hl⟩
  · refine hs1.congr fun c _ => ?_
    rw [← cleared_concat, unmark_of_not_marked (by simpa using hm), Function.update_eq_self]

/-- **`unmark_nodes`.** -/
theorem wp_unmarkNodes (hc : Chains b.set.buckets b.heap b.chain) (hV : ∀ a, b.Live a → V a)
    (hlen : b.set.buckets.len ≤ shl64 b.set.sizeExp) (hbad : ¬ b.Sized → bad) {n : Nat}
    (hn : tol ∨ b.heap.brk < n) (hs : Leveled b Z (fun a => (b.heap.get a).level) s) :
    wp (collecting V t tol bad) (LockFreeSet.unmarkNodes n)
      (fun _ s' => Leveled b Z (b.cleared b.nodes) s') s := by
  unfold LockFreeSet.unmarkNodes
  have h0 : b.cleared [] = fun a => (b.heap.get a).level := by
    funext a
    exact if_neg List.not_mem_nil
  have hhas : ∀ a, b.Live a → b.heap.Has a := fun a ⟨j, hj, ha⟩ => hc.has j hj a ha
  rw [← h0] at hs
  refine wp_read (o := .sizeExp) (Leveled b Z (b.cleared [])) (fun s s' h hd => h.drops hd) hs
    b.set.sizeExp (fun s hs => ?_) fun s hs => ?_
  · rw [← hs.sizeExp]
    rfl
  refine wp_mono (fun _ _ h => h.1) (wp_eachBucket (I := fun v _ s => Leveled b Z (b.cleared v) s)
    hc (fun _ _ _ _ h hd => h.drops hd) (fun _ _ _ h => ⟨Z, _, h⟩) ?_ hlen hbad hn hs)
  exact fun v x s a ha h => wp_unmarkNode hhas hV v ha h

end Tobdd.Store
