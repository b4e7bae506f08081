import Mathlib.Logic.Relation
import Tobdd.Table

/-!
# Under the write lock

The collector and the growth of the table run while no operation does.  The only thing
that others may do to the nodes meanwhile is to drop references (`deref_bdd` takes no
lock): `Drops`.  Each step of the collector `Tidies`: it writes marks and links of nodes of
its own table, and frees a node only where no referenced one reaches it.

`Leveled b Z lv s`: the table is that of `b` but for the levels, which are `lv`, and the
counts of references, which are zero on `Z`.  A loop over all nodes that keeps the links
is `wp_eachBucket`.
-/

namespace Tobdd

open Resume Linked

namespace Heap

/-- `b` is a child of the node `a`. -/
def Child (h : Heap) (a b : Bdd) : Prop :=
  h.Has a ∧ h.Has b ∧ (b = (h.get a).low ∨ b = (h.get a).high)

def Reaches (h : Heap) : Bdd → Bdd → Prop := Relation.ReflTransGen h.Child

theorem Child.congr {h h' : Heap} {a b : Bdd} (hab : h.Child a b) (ha : h'.Has a) (hb : h'.Has b)
    (hs : (h.get a).Same (h'.get a)) : h'.Child a b :=
  ⟨ha, hb, by rw [hs.low, hs.high]; exact hab.2.2⟩

theorem Reaches.has {h : Heap} {a b : Bdd} (hab : h.Reaches a b) (ha : h.Has a) : h.Has b := by
  cases hab with
  | refl => exact ha
  | tail _ hcd => exact hcd.2.1

/-- Paths stay where their nodes do. -/
theorem Reaches.congr {h h' : Heap} {a b : Bdd} (hab : h.Reaches a b)
    (hk : ∀ c, h.Reaches a c → h'.Has c ∧ (h.get c).Same (h'.get c)) : h'.Reaches a b := by
  induction hab with
  | refl => exact .refl
  | @tail c d hac hcd ih =>
    obtain ⟨h1, h2⟩ := hk c hac
    exact ih.tail (hcd.congr h1 (hk d (hac.tail hcd)).1 h2)

/-- A set that is closed under children holds what its nodes reach. -/
theorem Reaches.mem {h : Heap} {S : Bdd → Prop} {a b : Bdd} (hab : h.Reaches a b)
    (hS : ∀ c d, S c → h.Child c d → S d) (ha : S a) : S b := by
  induction hab with
  | refl => exact ha
  | tail _ hcd ih => exact hS _ _ ih hcd

end Heap

namespace Store

/-- Others drop references. -/
structure Drops (s s' : Store) : Prop where
  set : s'.set = s.set
  freeId : s'.freeId = s.freeId
  brk : s'.heap.brk = s.heap.brk
  frees : s'.heap.frees = s.heap.frees
  has : ∀ a, s'.heap.Has a ↔ s.heap.Has a
  node : ∀ a, (s.heap.get a).Recounted (s'.heap.get a)
  zero : ∀ a, (s.heap.get a).refCnt = 0 → (s'.heap.get a).refCnt = 0

theorem Drops.refl (s : Store) : Drops s s :=
  ⟨rfl, rfl, rfl, rfl, fun _ => Iff.rfl, fun _ => .refl _, fun _ h => h⟩

theorem Drops.trans {s₁ s₂ s₃ : Store} (h1 : Drops s₁ s₂) (h2 : Drops s₂ s₃) : Drops s₁ s₃ where
  set := h2.set.trans h1.set
  freeId := h2.freeId.trans h1.freeId
  brk := h2.brk.trans h1.brk
  frees := h2.frees.trans h1.frees
  has a := (h2.has a).trans (h1.has a)
  node a := (h1.node a).trans (h2.node a)
  zero a h := h2.zero a (h1.zero a h)

/-- A table does not notice. -/
theorem Drops.inv {s s' : Store} (h : Drops s s') (hs : s.Inv) :
    s'.Inv ∧ ∀ a, s'.Live a ↔ s.Live a := by
  obtain ⟨hinv, hch⟩ := hs.congr (by rw [h.set]) (by rw [h.set]) (by rw [h.set]) (by rw [h.set])
    fun a ha => ⟨(h.has a).mpr (hs.table.has ha), h.node a⟩
  exact ⟨hinv, live_congr (s := s) (u := s') (by rw [h.set]) hch⟩

/-- A step of the collector of a table with the nodes `V`. -/
structure Tidies (V : Bdd → Prop) (s s' : Store) : Prop where
  has : ∀ a, s'.heap.Has a → s.heap.Has a
  same : ∀ a, s'.heap.Has a → (s.heap.get a).Same (s'.heap.get a) ∧
    (s'.heap.get a).refCnt = (s.heap.get a).refCnt
  other : ∀ a, ¬ V a → s'.heap.cell a = s.heap.cell a
  kept : ∀ b a, V b → s.heap.Has b → (s.heap.get b).refCnt ≠ 0 → s.heap.Reaches b a →
    s'.heap.Has a
  freeId : s'.freeId = s.freeId
  brk : s'.heap.brk = s.heap.brk
  frees : ∀ a, s'.heap.Has a → s'.heap.frees a = s.heap.frees a
  mono : ∀ a, s.heap.frees a ≤ s'.heap.frees a
  gone : ∀ a, s.heap.Has a → s'.heap.frees a = s.heap.frees a → s'.heap.Has a

variable {V : Bdd → Prop}

/-- A step that frees nothing. -/
theorem Tidies.of_has {s s' : Store} (hhas : ∀ a, s'.heap.Has a ↔ s.heap.Has a)
    (hsame : ∀ a, s'.heap.Has a → (s.heap.get a).Same (s'.heap.get a) ∧
      (s'.heap.get a).refCnt = (s.heap.get a).refCnt)
    (hother : ∀ a, ¬ V a → s'.heap.cell a = s.heap.cell a) (hfree : s'.freeId = s.freeId)
    (hbrk : s'.heap.brk = s.heap.brk) (hfrees : s'.heap.frees = s.heap.frees) : Tidies V s s' :=
  ⟨fun a => (hhas a).mp, hsame, hother, fun _ a _ hb _ hr => (hhas a).mpr (hr.has hb), hfree, hbrk,
    fun a _ => congrFun hfrees a, fun a => by rw [hfrees], fun a ha _ => (hhas a).mpr ha⟩

/-- A step that does not touch the heap. -/
theorem Tidies.of_heap {s s' : Store} (hheap : s'.heap = s.heap) (hfree : s'.freeId = s.freeId) :
    Tidies V s s' := by
  refine .of_has (fun a => by rw [hheap]) (fun a _ => ?_) (fun a _ => by rw [hheap]) hfree
    (by rw [hheap]) (by rw [hheap])
  rw [hheap]
  exact ⟨.refl _, rfl⟩

theorem Tidies.refl (s : Store) : Tidies V s s := .of_heap rfl rfl

theorem Tidies.trans {s₁ s₂ s₃ : Store} (h1 : Tidies V s₁ s₂) (h2 : Tidies V s₂ s₃) :
    Tidies V s₁ s₃ where
  has a ha := h1.has a (h2.has a ha)
  same a ha := by
    obtain ⟨h3, h4⟩ := h2.same a ha
    obtain ⟨h5, h6⟩ := h1.same a (h2.has a ha)
    exact ⟨h5.trans h3, h4.trans h6⟩
  other a ha := (h2.other a ha).trans (h1.other a ha)
  kept b a hb hbs hr hba := by
    have hkeep := fun c hc => h1.kept b c hb hbs hr hc
    have hb2 := hkeep b .refl
    refine h2.kept b a hb hb2 ?_ (hba.congr fun c hc => ⟨hkeep c hc, (h1.same c (hkeep c hc)).1⟩)
    rw [(h1.same b hb2).2]
    exact hr
  freeId := h2.freeId.trans h1.freeId
  brk := h2.brk.trans h1.brk
  frees a ha := (h2.frees a ha).trans (h1.frees a (h2.has a ha))
  mono a := (h1.mono a).trans (h2.mono a)
  gone a ha he := by
    have h3 := h1.mono a
    have h4 := h2.mono a
    exact h2.gone a (h1.gone a ha (by omega)) (by omega)

/-! ## The logic of the collector -/

/-- The collector of thread `t`.  It may run out of rounds only if `tol`, and panic only if
`bad`. -/
def collecting (V : Bdd → Prop) (t : Nat) (tol bad : Prop) : Logic mem Store where
  exec := Store.exec t
  rely := Drops
  guar := Tidies V
  safe _ _ := True
  stops e _ := e = .spin ∧ tol ∨ e = .panic ∧ bad
  fits _ := True

section rules
variable {t : Nat} {tol bad : Prop} {α : Type} {Q : α → Store → Prop} {s : Store}

/-- One access.  `I` is what is known before it and not disturbed by others. -/
theorem wp_access {o : Access} {f : mem.Res o → Prog mem α} (I : Store → Prop)
    (hI : ∀ s s', I s → Drops s s' → I s') (hs : I s) (r : mem.Res o)
    (h : ∀ s', I s' → ∃ s'', Store.exec t o s' = .ok (r, s'') ∧ Tidies V s' s'' ∧
      wp (collecting V t tol bad) (f r) Q s'') :
    wp (collecting V t tol bad) (acc o >>= f) Q s := by
  intro s' hd
  obtain ⟨s'', he, hg, hq⟩ := h s' (hI s s' hs hd)
  exact Logic.Does.of_ok trivial he fun _ => ⟨hg, hq⟩

/-- An access that reads. -/
theorem wp_read {o : Access} {f : mem.Res o → Prog mem α} (I : Store → Prop)
    (hI : ∀ s s', I s → Drops s s' → I s') (hs : I s) (r : mem.Res o)
    (he : ∀ s', I s' → Store.exec t o s' = .ok (r, s'))
    (h : ∀ s', I s' → wp (collecting V t tol bad) (f r) Q s') :
    wp (collecting V t tol bad) (acc o >>= f) Q s :=
  wp_access I hI hs r fun s' hs' => ⟨s', he s' hs', .refl _, h s' hs'⟩

/-- The same where the answer is not known before. -/
theorem wp_see {o : Access} {f : mem.Res o → Prog mem α} (I : Store → Prop)
    (hI : ∀ s s', I s → Drops s s' → I s') (hs : I s)
    (h : ∀ s', I s' → ∃ r, Store.exec t o s' = .ok (r, s') ∧
      wp (collecting V t tol bad) (f r) Q s') :
    wp (collecting V t tol bad) (acc o >>= f) Q s := by
  intro s' hd
  obtain ⟨r, he, hq⟩ := h s' (hI s s' hs hd)
  exact Logic.Does.of_ok trivial he fun _ => ⟨.refl _, hq⟩

theorem wp_spinLoop (h : tol) : wp (collecting V t tol bad) (spinLoop : Prog mem α) Q s :=
  fun _ _ => Logic.Does.of_error trivial rfl (Or.inl ⟨rfl, h⟩)

/-- A bucket that the array does not have. -/
theorem wp_badHead {i : Nat} {f : Bdd → Prog mem α} (hi : s.set.buckets.len ≤ i) (h : bad) :
    wp (collecting V t tol bad) (acc (.load (.head i)) >>= f) Q s := by
  intro s' hd
  refine Logic.Does.of_error (e := .panic) trivial ?_ (Or.inr ⟨rfl, h⟩)
  have : ¬ i < s'.set.buckets.len := by
    rw [hd.set]
    omega
  exact exec_missing (t := t) (if_neg this)

end rules

/-! ## Levels -/

/-- The table is `b`'s but for the levels and the counts of references. -/
structure Leveled (b : Store) (Z : Bdd → Prop) (lv : Bdd → UInt64) (s : Store) : Prop where
  buckets : s.set.buckets = b.set.buckets
  sizeExp : s.set.sizeExp = b.set.sizeExp
  numEntry : s.set.numEntry = b.set.numEntry
  owed : s.set.owed = b.set.owed
  freeId : s.freeId = b.freeId
  brk : s.heap.brk = b.heap.brk
  frees : s.heap.frees = b.heap.frees
  has : ∀ a, s.heap.Has a ↔ b.heap.Has a
  level : ∀ a, b.heap.Has a → (s.heap.get a).level = lv a
  low : ∀ a, (s.heap.get a).low = (b.heap.get a).low
  high : ∀ a, (s.heap.get a).high = (b.heap.get a).high
  next : ∀ a, (s.heap.get a).next = (b.heap.get a).next
  hash : ∀ a, (s.heap.get a).hash = (b.heap.get a).hash
  zero : ∀ a, Z a → (s.heap.get a).refCnt = 0

variable {b s s' : Store} {Z : Bdd → Prop} {lv : Bdd → UInt64}

theorem Leveled.self (b : Store) :
    Leveled b (fun a => (b.heap.get a).refCnt = 0) (fun a => (b.heap.get a).level) b :=
  ⟨rfl, rfl, rfl, rfl, rfl, rfl, rfl, fun _ => Iff.rfl, fun _ _ => rfl, fun _ => rfl, fun _ => rfl,
    fun _ => rfl, fun _ => rfl, fun _ h => h⟩

theorem Leveled.drops (h : Leveled b Z lv s) (hd : Drops s s') : Leveled b Z lv s' where
  buckets := by rw [hd.set, h.buckets]
  sizeExp := by rw [hd.set, h.sizeExp]
  numEntry := by rw [hd.set, h.numEntry]
  owed := by rw [hd.set, h.owed]
  freeId := hd.freeId.trans h.freeId
  brk := hd.brk.trans h.brk
  frees := hd.frees.trans h.frees
  has a := (hd.has a).trans (h.has a)
  level a ha := (hd.node a).level.trans (h.level a ha)
  low a := (hd.node a).low.trans (h.low a)
  high a := (hd.node a).high.trans (h.high a)
  next a := (hd.node a).next.trans (h.next a)
  hash a := (hd.node a).hash.trans (h.hash a)
  zero a ha := hd.zero a (h.zero a ha)

theorem Leveled.ld (h : Leveled b Z lv s) : s.ld = b.ld := by
  funext p
  cases p with
  | head i =>
    show s.set.buckets.get i = _
    rw [h.buckets]
    rfl
  | next a => exact h.next a

/-- What was seen to be zero stays so. -/
theorem Leveled.see (h : Leveled b Z lv s) {a : Bdd} (ha : (s.heap.get a).refCnt = 0) :
    Leveled b (fun c => Z c ∨ c = a) lv s :=
  { h with zero := fun c hc => hc.elim (h.zero c) fun hca => hca ▸ ha }

theorem Leveled.congr {lv' : Bdd → UInt64} (h : Leveled b Z lv s) (he : ∀ a, b.heap.Has a → lv a = lv' a) :
    Leveled b Z lv' s :=
  { h with level := fun a ha => (h.level a ha).trans (he a ha) }

/-- A level is written, to the same but for the mark. -/
theorem Leveled.setLevel (h : Leveled b Z lv s) {a : Bdd} (ha : b.heap.Has a) (hV : V a)
    (f : UInt64 → UInt64) (hf : ∀ l, unmark (f l) = unmark l) :
    Leveled b Z (Function.update lv a (f (lv a)))
      { s with heap := s.heap.modify a fun n => { n with level := f n.level } } ∧
    Tidies V s { s with heap := s.heap.modify a fun n => { n with level := f n.level } } := by
  have hsa : s.heap.Has a := (h.has a).mpr ha
  -- what a field that is not the level says
  have hfield : ∀ {β : Type} (g : Node → β), (∀ n l, g { n with level := l } = g n) → ∀ c,
      g ((s.heap.modify a fun n => { n with level := f n.level }).get c) = g (s.heap.get c) := by
    intro β g hg c
    by_cases hc : c = a
    · subst hc
      rw [Heap.modify_get_self hsa, hg]
    · rw [Heap.modify_get_of_ne hc]
  constructor
  · exact
    { buckets := h.buckets
      sizeExp := h.sizeExp
      numEntry := h.numEntry
      owed := h.owed
      freeId := h.freeId
      brk := h.brk
      frees := h.frees
      has := fun c => Heap.modify_has.trans (h.has c)
      level := fun c hc => by
        by_cases hca : c = a
        · subst hca
          show ((s.heap.modify c _).get c).level = _
          rw [Heap.modify_get_self hsa, Function.update_self, h.level c hc]
        · show ((s.heap.modify a _).get c).level = _
          rw [Heap.modify_get_of_ne hca, Function.update_of_ne hca, h.level c hc]
      low := fun c => (hfield Node.low (fun _ _ => rfl) c).trans (h.low c)
      high := fun c => (hfield Node.high (fun _ _ => rfl) c).trans (h.high c)
      next := fun c => (hfield Node.next (fun _ _ => rfl) c).trans (h.next c)
      hash := fun c => (hfield Node.hash (fun _ _ => rfl) c).trans (h.hash c)
      zero := fun c hc => (hfield Node.refCnt (fun _ _ => rfl) c).trans (h.zero c hc) }
  · refine .of_has (fun c => Heap.modify_has) (fun c _ => ⟨⟨?_, ?_, ?_, ?_⟩, ?_⟩) (fun c hc => ?_)
      rfl rfl rfl
    · by_cases hca : c = a
      · subst hca
        show unmark ((s.heap.modify c _).get c).level = _
        rw [Heap.modify_get_self hsa, hf]
      · show unmark ((s.heap.modify a _).get c).level = _
        rw [Heap.modify_get_of_ne hca]
    · exact hfield Node.low (fun _ _ => rfl) c
    · exact hfield Node.high (fun _ _ => rfl) c
    · exact hfield Node.hash (fun _ _ => rfl) c
    · exact hfield Node.refCnt (fun _ _ => rfl) c
    · exact Heap.modify_cell_of_ne fun hca => hc (hca ▸ hV)

/-! ## Loops over all nodes -/

section loops
variable {t : Nat} {tol bad : Prop} {σ : Type} {body : Bdd → σ → Prog mem σ}
  {I : List Bdd → σ → Store → Prop}

/-- The chain that hangs on a place, node by node. -/
theorem wp_eachNode (hI : ∀ v x s s', I v x s → Drops s s' → I v x s')
    (hlv : ∀ v x s, I v x s → ∃ Z lv, Leveled b Z lv s) {dom : Bdd → Prop}
    (hdom : ∀ a, dom a → b.heap.Has a)
    (hbody : ∀ v x s a, dom a → I v x s → wp (collecting V t tol bad) (body a x) (I (v ++ [a])) s) :
    ∀ n l q v x s, Seg Place.next b.ld q l 0 → (∀ a ∈ l, dom a) → (tol ∨ l.length < n) → I v x s →
      wp (collecting V t tol bad) (eachNode body n (b.ld q) x) (I (v ++ l)) s := by
  intro n
  induction n with
  | zero => exact fun l q v x s _ _ hn _ => wp_spinLoop (hn.resolve_right (Nat.not_lt_zero _))
  | succ n ih =>
    intro l q v x s hseg hl hn hs
    cases l with
    | nil =>
      have hz : b.ld q = 0 := hseg
      rw [hz, List.append_nil]
      exact hs
    | cons a l =>
      obtain ⟨ha, hseg⟩ := hseg
      have hda := hl a List.mem_cons_self
      rw [ha]
      unfold eachNode
      rw [if_neg (hdom a hda).ne_zero]
      refine wp_seq (hbody v x s a hda hs) fun x' s' hs' => ?_
      refine wp_read (I (v ++ [a]) x') (hI _ _) hs' (b.ld (.next a)) (fun s'' hs'' => ?_) fun s'' hs'' => ?_
      · obtain ⟨Z, lv, hle⟩ := hlv _ _ _ hs''
        exact exec_load_eq (missing_next ((hle.has a).mpr (hdom a hda))) (by rw [hle.ld])
      · have := ih l (.next a) (v ++ [a]) x' s'' hseg (fun c hc => hl c (List.mem_cons_of_mem _ hc))
          (hn.imp_right fun h => by simpa using h) hs''
        rwa [List.append_assoc] at this

/-- The loop over all buckets. -/
theorem wp_eachBucket (hc : Chains b.set.buckets b.heap b.chain)
    (hI : ∀ v x s s', I v x s → Drops s s' → I v x s')
    (hlv : ∀ v x s, I v x s → ∃ Z lv, Leveled b Z lv s)
    (hbody : ∀ v x s a, b.Live a → I v x s → wp (collecting V t tol bad) (body a x) (I (v ++ [a])) s)
    (hlen : b.set.buckets.len ≤ shl64 b.set.sizeExp) (hbad : ¬ b.Sized → bad) {n : Nat}
    (hn : tol ∨ b.heap.brk < n) {x : σ} {s : Store} (hs : I [] x s) :
    wp (collecting V t tol bad)
      (Prog.forRange (shl64 b.set.sizeExp) (fun i x => do
        let head : Bdd ← acc (.load (.head i))
        eachNode body n head x) x)
      (fun x s => I b.nodes x s ∧ b.Sized) s := by
  refine wp_mono ?_ (wp_forRange (I := fun i x s =>
    I ((List.range i).flatMap b.chain) x s ∧ i ≤ b.set.buckets.len) ⟨hs, Nat.zero_le _⟩ ?_)
  · rintro x s ⟨h, hle⟩
    have hsz : b.Sized := Nat.le_antisymm hlen hle
    refine ⟨?_, hsz⟩
    unfold nodes
    rw [hsz]
    exact h
  · rintro i x s hi ⟨h, hle⟩
    obtain ⟨Z, lv, hle1⟩ := hlv _ _ _ h
    by_cases hib : i < b.set.buckets.len
    · refine wp_read (I ((List.range i).flatMap b.chain) x) (hI _ _) h (b.ld (.head i))
        (fun s' hs' => ?_) fun s' hs' => ?_
      · obtain ⟨Z, lv, hle⟩ := hlv _ _ _ hs'
        exact exec_load_eq (missing_head (by rw [hle.buckets]; exact hib)) (by rw [hle.ld])
      · refine wp_mono ?_ (wp_eachNode hI hlv
          (fun a (h : b.Live a) => h.elim fun j hj => hc.has j hj.1 a hj.2) hbody n (b.chain i) (.head i) _ x s' ?_
          (fun a ha => ⟨i, hib, ha⟩) ?_ hs')
        · intro x' s'' h'
          refine ⟨?_, hib⟩
          rw [List.range_succ, List.flatMap_append, List.flatMap_singleton]
          exact h'
        · rw [ld_eq]
          exact hc.seg i hib
        · exact hn.imp_right (Nat.lt_of_le_of_lt (hc.length_le hib))
    · refine wp_badHead (by rw [hle1.buckets]; omega) (hbad fun hsz => ?_)
      unfold Sized at hsz
      omega

end loops

end Store

end Tobdd
