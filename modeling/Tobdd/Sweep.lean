import Tobdd.Mark

/-!
# Sweeping

`gc_unmarked` goes along the chains, links the nodes without the mark out and frees them.

    wp_gcUnmarked: of every chain the marked nodes are left, in their order; of the nodes of
                   the table the others are not allocated any more
-/

namespace Tobdd.Store

open Resume Linked

/-- The table `b` is about to be swept; `M` are its marked nodes. -/
structure Sweepable (b : Store) (M : Finset Bdd) : Prop where
  chains : Chains b.set.buckets b.heap b.chain
  marked : ∀ a, b.Live a → ((b.heap.get a).Marked ↔ a ∈ M)
  closed : ∀ a ∈ M, ∀ c, b.heap.Child a c → c ∈ M
  zero : ∀ a, b.Live a → a ∉ M → (b.heap.get a).refCnt = 0

/-- `C` are the chains now, `X` the nodes linked out but not yet freed. -/
structure Sweeping (b : Store) (M : Finset Bdd) (C : Nat → List Bdd) (X : List Bdd) (s : Store) :
    Prop where
  chains : Chains s.set.buckets s.heap C
  sub : ∀ i, i < b.set.buckets.len → ∀ a ∈ C i, b.Live a
  len : s.set.buckets.len = b.set.buckets.len
  sizeExp : s.set.sizeExp = b.set.sizeExp
  numMarks : s.set.numMarks = b.set.numMarks
  owed : s.set.owed = b.set.owed
  brk : s.heap.brk = b.heap.brk
  has : ∀ a, s.heap.Has a ↔
    b.heap.Has a ∧ (b.Live a → a ∈ X ∨ ∃ i, i < b.set.buckets.len ∧ a ∈ C i)
  node : ∀ a, s.heap.Has a → (b.heap.get a).Alike (s.heap.get a)
  zero : ∀ a, b.Live a → a ∉ M → s.heap.Has a → (s.heap.get a).refCnt = 0

variable {b s s' : Store} {M : Finset Bdd} {C : Nat → List Bdd} {X : List Bdd} {t : Nat}
  {tol bad : Prop} {i : Nat} {a : Bdd} {l₁ l₂ : List Bdd}

theorem Sweepable.start (h : Sweepable b M) : Sweeping b M b.chain [] b where
  chains := h.chains
  sub i hi _ ha := ⟨i, hi, ha⟩
  len := rfl
  sizeExp := rfl
  numMarks := rfl
  owed := rfl
  brk := rfl
  has _ := ⟨fun ha => ⟨ha, fun hl => Or.inr hl⟩, fun ha => ha.1⟩
  node _ _ := .refl _
  zero a ha hm _ := h.zero a ha hm

theorem Sweeping.drops (h : Sweeping b M C X s) (hd : Drops s s') : Sweeping b M C X s' where
  chains := by
    rw [hd.set]
    refine h.chains.congr fun i hi a ha => ⟨(hd.has a).mpr (h.chains.has i hi a ha), (hd.node a).next⟩
  sub := h.sub
  len := by rw [hd.set, h.len]
  sizeExp := by rw [hd.set, h.sizeExp]
  numMarks := by rw [hd.set, h.numMarks]
  owed := by rw [hd.set, h.owed]
  brk := hd.brk.trans h.brk
  has a := (hd.has a).trans (h.has a)
  node a ha := (h.node a ((hd.has a).mp ha)).trans (hd.node a).alike
  zero a ha hm hs := hd.zero a (h.zero a ha hm ((hd.has a).mp hs))

/-- The place behind a part of a chain is a place of the table. -/
theorem Sweeping.place_ne (h : Sweeping b M C X s) (hi : i < b.set.buckets.len)
    (hsplit : C i = l₁ ++ l₂) {c : Bdd} (hc : ¬ b.Live c) :
    endPlace Place.next (.head i) l₁ ≠ .next c := by
  rcases endPlace_cases Place.next (.head i) l₁ with ⟨-, h'⟩ | ⟨d, hd, h'⟩
  · rw [h']
    exact fun h => by cases h
  · rw [h']
    intro he
    injection he with he
    refine hc (he ▸ h.sub i hi d ?_)
    rw [hsplit]
    exact List.mem_append_left _ hd

/-- The node `a` is linked out. -/
theorem Sweeping.unlink (h : Sweeping b M C [] s) (hi : i < b.set.buckets.len)
    (hsplit : C i = l₁ ++ a :: l₂) :
    Sweeping b M (Function.update C i (l₁ ++ l₂)) [a]
      (s.put (s.ld (.next a)) (endPlace Place.next (.head i) l₁)) ∧
    Tidies b.Live s (s.put (s.ld (.next a)) (endPlace Place.next (.head i) l₁)) := by
  have hget := fun c => put_get s (s.ld (.next a)) (endPlace Place.next (.head i) l₁) c
  have hmem : ∀ c, (∃ j, j < b.set.buckets.len ∧ c ∈ C j) ↔
      c = a ∨ ∃ j, j < b.set.buckets.len ∧ c ∈ Function.update C i (l₁ ++ l₂) j := by
    intro c
    constructor
    · rintro ⟨j, hj, hc⟩
      by_cases hji : j = i
      · subst hji
        rw [hsplit] at hc
        by_cases hca : c = a
        · exact Or.inl hca
        · refine Or.inr ⟨j, hj, ?_⟩
          rw [Function.update_self]
          simp only [List.mem_append, List.mem_cons, hca, false_or] at hc ⊢
          exact hc
      · refine Or.inr ⟨j, hj, ?_⟩
        rwa [Function.update_of_ne hji]
    · rintro (rfl | ⟨j, hj, hc⟩)
      · exact ⟨i, hi, by rw [hsplit]; simp⟩
      · refine ⟨j, hj, ?_⟩
        by_cases hji : j = i
        · subst hji
          rw [Function.update_self] at hc
          rw [hsplit]
          simp only [List.mem_append, List.mem_cons] at hc ⊢
          tauto
        · rwa [Function.update_of_ne hji] at hc
  constructor
  · refine ⟨h.chains.remove (by rw [h.len]; exact hi) hsplit, fun j hj c hc => ?_, ?_, ?_, ?_, ?_,
      ?_, fun c => ?_, fun c hc => ?_, fun c hc hm hs => ?_⟩
    · obtain ⟨k, hk, hck⟩ := (hmem c).mpr (Or.inr ⟨j, hj, hc⟩)
      exact h.sub k hk c hck
    · rw [put_len, h.len]
    · rw [put_sizeExp, h.sizeExp]
    · rw [put_numMarks, h.numMarks]
    · rw [put_owed, h.owed]
    · rw [put_brk, h.brk]
    · rw [put_has, h.has, hmem c]
      simp only [List.mem_singleton, List.not_mem_nil, false_or]
    · rw [put_has] at hc
      exact (h.node c hc).trans (hget c).alike
    · rw [put_has] at hs
      rw [(hget c).refCnt]
      exact h.zero c hc hm hs
  · refine .of_has (fun c => put_has ..) (fun c _ => ⟨(hget c).same, (hget c).refCnt⟩)
      (fun c hc => put_cell_of_ne _ _ _ (h.place_ne hi hsplit hc)) (put_freeId ..) (put_brk ..)
      (put_frees ..)

/-- A node that was linked out is freed. -/
theorem Sweeping.release (hb : Sweepable b M) (h : Sweeping b M C [a] s) (ha : b.Live a)
    (hm : a ∉ M) (hout : ∀ j, j < b.set.buckets.len → a ∉ C j) :
    Sweeping b M C [] { s with heap := s.heap.free a } ∧
    Tidies b.Live s { s with heap := s.heap.free a } := by
  have hcell : ∀ c, c ≠ a → (s.heap.free a).cell c = s.heap.cell c :=
    fun c hc => Heap.free_cell_of_ne hc
  have hhas : ∀ c, (s.heap.free a).Has c ↔ s.heap.Has c ∧ c ≠ a := by
    intro c
    unfold Heap.Has
    by_cases hc : c = a
    · subst hc
      rw [Heap.free_cell_self]
      simp
    · rw [hcell c hc]
      simp [hc]
  have hget : ∀ c, c ≠ a → (s.heap.free a).get c = s.heap.get c := by
    intro c hc
    unfold Heap.get
    rw [hcell c hc]
  constructor
  · refine ⟨h.chains.congr fun j hj c hc => ?_, h.sub, h.len, h.sizeExp, h.numMarks, h.owed, h.brk,
      fun c => ?_, fun c hc => ?_, fun c hc hcm hs => ?_⟩
    · have hca : c ≠ a := fun hca => hout j (h.len ▸ hj) (hca ▸ hc)
      show (s.heap.free a).Has c ∧ ((s.heap.free a).get c).next = _
      rw [hget c hca]
      exact ⟨(hhas c).mpr ⟨h.chains.has j hj c hc, hca⟩, rfl⟩
    · show (s.heap.free a).Has c ↔ _
      rw [hhas, h.has]
      simp only [List.mem_singleton, List.not_mem_nil, false_or]
      constructor
      · rintro ⟨⟨h1, h2⟩, hca⟩
        exact ⟨h1, fun hl => (h2 hl).resolve_left hca⟩
      · rintro ⟨h1, h2⟩
        refine ⟨⟨h1, fun hl => Or.inr (h2 hl)⟩, ?_⟩
        rintro rfl
        obtain ⟨j, hj, hc⟩ := h2 ha
        exact hout j hj hc
    · obtain ⟨h1, h2⟩ := (hhas c).mp hc
      show (b.heap.get c).Alike ((s.heap.free a).get c)
      rw [hget c h2]
      exact h.node c h1
    · obtain ⟨h1, h2⟩ := (hhas c).mp hs
      show ((s.heap.free a).get c).refCnt = 0
      rw [hget c h2]
      exact h.zero c hc hcm h1
  · refine ⟨fun c hc => ((hhas c).mp hc).1, fun c hc => ?_, fun c hc => hcell c ?_,
      fun c d hc hs hr hcd => ?_, rfl, rfl, fun c hc => ?_, fun c => ?_, fun c hc he => ?_⟩
    · show (s.heap.get c).Same ((s.heap.free a).get c) ∧ ((s.heap.free a).get c).refCnt = _
      rw [hget c ((hhas c).mp hc).2]
      exact ⟨.refl _, rfl⟩
    · rintro rfl
      exact hc ha
    · -- what a referenced node reaches is marked
      have hcm : c ∈ M := by
        by_contra hcm
        exact hr (h.zero c hc hcm hs)
      have hbs : ∀ x, s.heap.Has x → b.heap.Has x := fun x hx => ((h.has x).mp hx).1
      have hdm : d ∈ M := hcd.mem (S := fun x => x ∈ M) (fun x y hx hxy => by
        refine hb.closed x hx y ⟨hbs x hxy.1, hbs y hxy.2.1, ?_⟩
        rw [← (h.node x hxy.1).low, ← (h.node x hxy.1).high]
        exact hxy.2.2) hcm
      exact (hhas d).mpr ⟨hcd.has hs, fun hda => hm (hda ▸ hdm)⟩
    · exact Function.update_of_ne ((hhas c).mp hc).2 _ _
    · by_cases hca : c = a
      · subst hca
        show s.heap.frees c ≤ Function.update s.heap.frees c _ c
        rw [Function.update_self]
        exact Nat.le_succ _
      · exact (Function.update_of_ne hca _ _).ge
    · refine (hhas c).mpr ⟨hc, ?_⟩
      rintro rfl
      have he' : Function.update s.heap.frees c (s.heap.frees c + 1) c = s.heap.frees c := he
      rw [Function.update_self] at he'
      omega

/-- What the place behind a part of a chain holds. -/
theorem Sweeping.load (h : Sweeping b M C X s) (hi : i < b.set.buckets.len)
    (hsplit : C i = l₁ ++ l₂) : s.ld (endPlace Place.next (.head i) l₁) = l₂.headD 0 := by
  have hseg := h.chains.seg i (by rw [h.len]; exact hi)
  rw [hsplit] at hseg
  rw [ld_eq, hseg.load]
  cases l₂ <;> rfl

theorem wp_sweep (hb : Sweepable b M) (hi : i < b.set.buckets.len) :
    ∀ n C l₁ l₂ s, Sweeping b M C [] s → C i = l₁ ++ l₂ → (tol ∨ l₂.length < n) →
      wp (collecting b.Live t tol bad)
        (LockFreeSet.sweep n (endPlace Place.next (.head i) l₁) (l₂.headD 0))
        (fun _ s' => Sweeping b M (Function.update C i (l₁ ++ l₂.filter (· ∈ M))) [] s') s := by
  intro n
  induction n with
  | zero => exact fun C l₁ l₂ s _ _ hn => wp_spinLoop (hn.resolve_right (Nat.not_lt_zero _))
  | succ n ih =>
    intro C l₁ l₂ s hs hsplit hn
    cases l₂ with
    | nil =>
      have hC : Function.update C i (l₁ ++ ([] : List Bdd).filter (· ∈ M)) = C := by
        rw [List.filter_nil, ← hsplit, Function.update_eq_self]
      show Sweeping b M (Function.update C i (l₁ ++ ([] : List Bdd).filter (· ∈ M))) [] s
      rw [hC]
      exact hs
    | cons a l₂ =>
      have hstable : ∀ {X : List Bdd} {C : Nat → List Bdd} (s s' : Store),
          Sweeping b M C X s → Drops s s' → Sweeping b M C X s' := fun s s' h hd => h.drops hd
      have hn' : tol ∨ l₂.length < n := hn.imp_right fun h => by simpa using h
      have hai : a ∈ C i := by
        rw [hsplit]
        simp
      have hla : b.Live a := hs.sub i hi a hai
      have hhas : ∀ {s}, Sweeping b M C [] s → s.heap.Has a := fun h =>
        h.chains.has i (by rw [h.len]; exact hi) a hai
      have hnext : ∀ {s}, Sweeping b M C [] s → s.ld (.next a) = l₂.headD 0 := fun h => by
        rw [← h.load hi (hsplit.trans (List.append_assoc l₁ [a] l₂).symm), endPlace_concat]
      unfold LockFreeSet.sweep
      rw [List.headD_cons, if_neg (hhas hs).ne_zero]
      refine wp_read (o := .level a) (Sweeping b M C []) hstable hs (b.heap.get a).level
        (fun s' hs' => exec_field (hhas hs') (hs'.node a (hhas hs')).level) fun s₁ hs1 => ?_
      refine wp_ite _ (fun hz => ?_) fun hz => ?_
      · -- without the mark: out of the list, and free it
        have hm : a ∉ M := fun hm => ((hb.marked a hla).mpr hm) hz
        refine wp_read (o := .load (.next a)) (Sweeping b M C []) hstable hs1 (l₂.headD 0)
          (fun s' hs' => exec_load_eq (missing_next (hhas hs')) (hnext hs')) fun s₂ hs2 => ?_
        refine wp_access (o := .store _ _) (Sweeping b M C []) hstable hs2 () fun s₃ hs3 => ?_
        obtain ⟨h4, ht4⟩ := hs3.unlink hi hsplit
        rw [hnext hs3] at h4 ht4
        refine ⟨_, exec_store (hs3.chains.missing_end (by rw [hs3.len]; exact hi) fun c hc => ?_), ht4,
          ?_⟩
        · rw [hsplit]
          exact List.mem_append_left _ hc
        have hout : ∀ j, j < b.set.buckets.len → a ∉ Function.update C i (l₁ ++ l₂) j := by
          intro j hj haj
          have hnd := hs3.chains.nodup (i := i) (by rw [hs3.len]; exact hi)
          rw [hsplit] at hnd
          by_cases hji : j = i
          · subst hji
            rw [Function.update_self] at haj
            have := (List.nodup_middle.mp hnd)
            exact (List.nodup_cons.mp this).1 haj
          · rw [Function.update_of_ne hji] at haj
            exact hji (hs3.chains.once j i (by rw [hs3.len]; exact hj) (by rw [hs3.len]; exact hi)
              a haj hai)
        refine wp_access (o := .free a) (Sweeping b M _ [a]) hstable h4 () fun s₅ hs5 => ?_
        obtain ⟨h6, ht6⟩ := hs5.release hb hla hm hout
        have hh5 : s₅.heap.Has a := (hs5.has a).mpr
          ⟨hb.chains.has _ hla.choose_spec.1 a hla.choose_spec.2,
            fun _ => Or.inl (List.mem_singleton.mpr rfl)⟩
        refine ⟨_, exec_free hh5, ht6, ?_⟩
        have := ih _ l₁ l₂ _ h6 (Function.update_self ..) hn'
        rw [Function.update_idem] at this
        rw [List.filter_cons_of_neg (by simpa using hm)]
        exact this
      · have hm : a ∈ M := (hb.marked a hla).mp hz
        refine wp_read (o := .load (.next a)) (Sweeping b M C []) hstable hs1 (l₂.headD 0)
          (fun s' hs' => exec_load_eq (missing_next (hhas hs')) (hnext hs')) fun s₂ hs2 => ?_
        have := ih C (l₁ ++ [a]) l₂ s₂ hs2 (by rw [hsplit]; simp) hn'
        rw [endPlace_concat] at this
        rw [List.filter_cons_of_pos (by simpa using hm)]
        rwa [List.append_assoc, List.singleton_append] at this

/-- **`gc_unmarked`.** -/
theorem wp_gcUnmarked (hb : Sweepable b M) (hlen : b.set.buckets.len ≤ shl64 b.set.sizeExp)
    (hbad : ¬ b.Sized → bad) {n : Nat} (hn : tol ∨ b.heap.brk < n) :
    wp (collecting b.Live t tol bad) (LockFreeSet.gcUnmarked n)
      (fun _ s => ∃ C, Sweeping b M C [] s ∧ s.set.numEntry = b.set.numMarks ∧
        ∀ i, i < b.set.buckets.len → C i = (b.chain i).filter (· ∈ M)) b := by
  have hstable : ∀ {X : List Bdd} {C : Nat → List Bdd} (s s' : Store),
      Sweeping b M C X s → Drops s s' → Sweeping b M C X s' := fun s s' h hd => h.drops hd
  -- the chains when `i` buckets are done
  let C (i : Nat) (j : Nat) : List Bdd := if j < i then (b.chain j).filter (· ∈ M) else b.chain j
  unfold LockFreeSet.gcUnmarked
  refine wp_read (o := .sizeExp) (Sweeping b M b.chain []) hstable hb.start b.set.sizeExp
    (fun s hs => by rw [← hs.sizeExp]; rfl) fun s hs => ?_
  refine wp_seq (wp_forRange (I := fun i _ s => Sweeping b M (C i) [] s ∧ i ≤ b.set.buckets.len) ?_ ?_)
    ?_
  · refine ⟨?_, Nat.zero_le _⟩
    have : C 0 = b.chain := by
      funext j
      exact if_neg (Nat.not_lt_zero j)
    rwa [this]
  · rintro i x s hi ⟨h, hle⟩
    by_cases hib : i < b.set.buckets.len
    · have hCi : C i i = b.chain i := if_neg (Nat.lt_irrefl i)
      refine wp_read (o := .load (.head i)) (Sweeping b M (C i) []) hstable h ((b.chain i).headD 0)
        (fun s' hs' => exec_load_eq (missing_head (by rw [hs'.len]; exact hib)) ?_) fun s' hs' => ?_
      · exact Sweeping.load hs' hib (hCi.trans (List.nil_append _).symm)
      · refine wp_mono ?_ (wp_sweep hb hib n (C i) [] (b.chain i) s' hs' hCi
          (hn.imp_right (Nat.lt_of_le_of_lt (hb.chains.length_le hib))))
        intro _ s'' h'
        have : C (i + 1) = Function.update (C i) i ([] ++ (b.chain i).filter (· ∈ M)) := by
          funext j
          by_cases hj : j = i
          · subst hj
            rw [Function.update_self]
            exact if_pos (Nat.lt_succ_self j)
          · rw [Function.update_of_ne hj]
            by_cases hji : j < i
            · exact (if_pos (Nat.lt_succ_of_lt hji)).trans (if_pos hji).symm
            · exact (if_neg (by omega)).trans (if_neg hji).symm
        rw [this]
        exact ⟨h', hib⟩
    · refine wp_badHead (by rw [h.len]; omega) (hbad fun hsz => ?_)
      unfold Sized at hsz
      omega
  · rintro _ s' ⟨hs', hle⟩
    refine wp_read (o := .numMarks) (Sweeping b M _ []) hstable hs' b.set.numMarks
      (fun s hs => by rw [← hs.numMarks]; rfl) fun s₁ hs1 => ?_
    refine wp_access (o := .setEntry b.set.numMarks) (Sweeping b M _ []) hstable hs1 ()
      fun s₂ hs2 => ?_
    refine ⟨{ s₂ with set := { s₂.set with numEntry := b.set.numMarks } }, rfl, .of_heap rfl rfl,
      _, ⟨hs2.chains, hs2.sub, hs2.len, hs2.sizeExp, hs2.numMarks, hs2.owed, hs2.brk, hs2.has,
        hs2.node, hs2.zero⟩, rfl, fun i hi => if_pos (by omega)⟩

end Tobdd.Store
