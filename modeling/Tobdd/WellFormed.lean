import Tobdd.RoundTrip

/-!
# Streams that anyone may have written

`WellFormed`: records over two constants that name earlier records, with levels going up; they
need not be reduced.  `Tells`: what such a list says about an id, read as if-then-else.

    WellFormed.after: the id of each record is known then for the function the list says
    Reach.deserialize_wellFormed: `deserialize` answers with the node of the function of the
                                  last record, and all nodes stay as they are
-/

namespace Tobdd

open Resume Diagram

namespace Manager

open World

/-- What a list of records over the constants `falseId` and `trueId` says about an id. -/
inductive Tells (falseId trueId : UInt64) (l : List Record) : UInt64 → BoolFn → Prop
  | bot : Tells falseId trueId l falseId fun _ => false
  | top : Tells falseId trueId l trueId fun _ => true
  | node {r : Record} {f f' : BoolFn} (hr : r ∈ l) (hlow : Tells falseId trueId l r.low f)
      (hhigh : Tells falseId trueId l r.high f') :
      Tells falseId trueId l r.id (choose r.level.toNat f f')

structure WellFormed (numVars : Nat) (falseId trueId : UInt64) (l : List Record) : Prop where
  ne : falseId ≠ trueId
  nonempty : l ≠ []
  /-- a child is a constant, or an earlier record of a higher level -/
  child : ∀ l₁ r l₂, l = l₁ ++ r :: l₂ → ∀ c, c = r.low ∨ c = r.high →
    c = falseId ∨ c = trueId ∨ ∃ r' ∈ l₁, r'.id = c ∧ r.level < r'.level
  consts : ∀ r ∈ l, r.id ≠ falseId ∧ r.id ≠ trueId
  same : ∀ r ∈ l, ∀ r' ∈ l, r.id = r'.id → r = r'
  bound : ∀ r ∈ l, r.level.toNat < numVars

/-- The bytes of the list. -/
def framed (falseId trueId : UInt64) (l : List Record) : List UInt8 :=
  toBeBytes falseId ++ toBeBytes trueId ++ l.flatMap Record.bytes

section
variable {numVars : Nat} {falseId trueId id : UInt64} {l : List Record} {f f' : BoolFn}

theorem framed_word (falseId trueId : UInt64) (l : List Record) :
    word (framed falseId trueId l) 0 = falseId ∧ word (framed falseId trueId l) 1 = trueId := by
  unfold framed
  rw [List.append_assoc, word_succ]
  exact ⟨word_zero .., word_zero ..⟩

theorem framed_length : (framed falseId trueId l).length = 16 + (l.flatMap Record.bytes).length := by
  unfold framed
  rw [List.length_append, List.length_append, toBeBytes_length, toBeBytes_length]

theorem framed_body : body ((framed falseId trueId l).drop 16) = l := by
  have hlen : (toBeBytes falseId ++ toBeBytes trueId).length = 16 := by
    rw [List.length_append, toBeBytes_length, toBeBytes_length]
  unfold framed
  rw [List.drop_left' hlen, ← List.append_nil (l.flatMap Record.bytes)]
  exact body_records l [] (by decide)

/-! ## What the list says -/

theorem Tells.cases (h : Tells falseId trueId l id f) :
    (id = falseId ∧ f = fun _ => false) ∨ (id = trueId ∧ f = fun _ => true) ∨
    ∃ r ∈ l, id = r.id ∧ ∃ f₀ f₁, Tells falseId trueId l r.low f₀ ∧ Tells falseId trueId l r.high f₁ ∧
      f = choose r.level.toNat f₀ f₁ := by
  cases h with
  | bot => exact Or.inl ⟨rfl, rfl⟩
  | top => exact Or.inr (Or.inl ⟨rfl, rfl⟩)
  | node hr h0 h1 => exact Or.inr (Or.inr ⟨_, hr, rfl, _, _, h0, h1, rfl⟩)

/-- It says one thing about an id. -/
theorem WellFormed.functional (hw : WellFormed numVars falseId trueId l)
    (h : Tells falseId trueId l id f) (h' : Tells falseId trueId l id f') : f = f' := by
  induction h generalizing f' with
  | bot =>
    rcases h'.cases with ⟨-, rfl⟩ | ⟨he, -⟩ | ⟨r, hr, he, -⟩
    · rfl
    · exact absurd he hw.ne
    · exact absurd he.symm (hw.consts r hr).1
  | top =>
    rcases h'.cases with ⟨he, -⟩ | ⟨-, rfl⟩ | ⟨r, hr, he, -⟩
    · exact absurd he.symm hw.ne
    · rfl
    · exact absurd he.symm (hw.consts r hr).2
  | @node r f f' hr _ _ ih0 ih1 =>
    rcases h'.cases with ⟨he, -⟩ | ⟨he, -⟩ | ⟨r', hr', he, f₀, f₁, h0, h1, rfl⟩
    · exact absurd he (hw.consts r hr).1
    · exact absurd he (hw.consts r hr).2
    · obtain rfl := hw.same r hr r' hr' he
      rw [ih0 h0, ih1 h1]

/-! ## What is known along the way -/

/-- What is known after the records `l₁`, the first ones of `l`. -/
structure Learnt (falseId trueId : UInt64) (l l₁ : List Record) (F : Meaning) : Prop where
  told : ∀ id f, F id = some f → Tells falseId trueId l id f
  from' : ∀ r ∈ l, ∀ f, F r.id = some f → From r.level.toNat f
  bot : F falseId ≠ none
  top : F trueId ≠ none
  known : ∀ r ∈ l₁, F r.id ≠ none

theorem Learnt.start (hw : WellFormed numVars falseId trueId l) :
    Learnt falseId trueId l [] (.start falseId trueId) := by
  obtain ⟨hT, hF⟩ := start_known falseId trueId
  refine ⟨fun id f hid => ?_, fun r hr f hid => ?_, hF, hT, fun r hr => absurd hr List.not_mem_nil⟩
  · unfold Meaning.start at hid
    by_cases h1 : id = trueId
    · subst h1
      rw [Function.update_self] at hid
      obtain rfl := Option.some.inj hid
      exact .top
    · rw [Function.update_of_ne h1] at hid
      by_cases h0 : id = falseId
      · subst h0
        rw [Function.update_self] at hid
        obtain rfl := Option.some.inj hid
        exact .bot
      · rw [Function.update_of_ne h0] at hid
        cases hid
  · unfold Meaning.start at hid
    rw [Function.update_of_ne (hw.consts r hr).2, Function.update_of_ne (hw.consts r hr).1] at hid
    cases hid

/-- A child of the next record is known, for a function of the variables below the record. -/
theorem Learnt.child (hw : WellFormed numVars falseId trueId l) {l₁ l₂ : List Record} {r : Record}
    {F : Meaning} (h : Learnt falseId trueId l l₁ F) (hl : l = l₁ ++ r :: l₂) {c : UInt64}
    (hc : c = r.low ∨ c = r.high) : ∃ f, F c = some f ∧ From (r.level.toNat + 1) f := by
  have hconst : ∀ {c b}, F c ≠ none → Tells falseId trueId l c (fun _ => b) →
      ∃ f, F c = some f ∧ From (r.level.toNat + 1) f := by
    intro c b hne hs
    obtain ⟨f, hf⟩ := Option.ne_none_iff_exists'.mp hne
    obtain rfl := hw.functional (h.told c f hf) hs
    exact ⟨_, hf, from_const _ b⟩
  rcases hw.child l₁ r l₂ hl c hc with rfl | rfl | ⟨r', hr', rfl, hlt⟩
  · exact hconst h.bot .bot
  · exact hconst h.top .top
  · obtain ⟨f, hf⟩ := Option.ne_none_iff_exists'.mp (h.known r' hr')
    have hmem : r' ∈ l := hl ▸ List.mem_append_left _ hr'
    exact ⟨f, hf, (h.from' r' hmem f hf).mono hlt⟩

/-- The next record is in order, and what is known after it is as before. -/
theorem Learnt.step (hw : WellFormed numVars falseId trueId l) {l₁ l₂ : List Record} {r : Record}
    {F : Meaning} (h : Learnt falseId trueId l l₁ F) (hl : l = l₁ ++ r :: l₂) :
    (∀ debug, r.Sound debug numVars F) ∧ Learnt falseId trueId l (l₁ ++ [r]) (F.learn r) := by
  have hr : r ∈ l := hl ▸ List.mem_append_right _ List.mem_cons_self
  obtain ⟨f₀, h0, hf0⟩ := h.child hw hl (Or.inl rfl)
  obtain ⟨f₁, h1, hf1⟩ := h.child hw hl (Or.inr rfl)
  have hval := r.value_eq h0 h1
  -- every id but the record's own is as it was
  have hcase : ∀ id f, F.learn r id = some f →
      (id = r.id ∧ f = choose r.level.toNat f₀ f₁) ∨ F id = some f := by
    intro id f hid
    unfold Meaning.learn at hid
    by_cases he : id = r.id
    · subst he
      rw [Function.update_self, hval] at hid
      exact Or.inl ⟨rfl, (Option.some.inj hid).symm⟩
    · rw [Function.update_of_ne he] at hid
      exact Or.inr hid
  have hkeep : ∀ id, (id = r.id ∨ F id ≠ none) → F.learn r id ≠ none := by
    intro id hid
    unfold Meaning.learn
    by_cases he : id = r.id
    · subst he
      rw [Function.update_self, hval]
      exact Option.some_ne_none _
    · rw [Function.update_of_ne he]
      exact hid.resolve_left he
  refine ⟨fun _ => ⟨fun _ => Nat.le_of_lt (hw.bound r hr), f₀, f₁, h0, h1,
    Or.inr ⟨hw.bound r hr, hf0, hf1⟩⟩, fun id f hid => ?_,
    fun r' hr' f hid => ?_, hkeep _ (Or.inr h.bot), hkeep _ (Or.inr h.top), fun r' hr' => ?_⟩
  · rcases hcase id f hid with ⟨rfl, rfl⟩ | hid
    · exact .node hr (h.told _ _ h0) (h.told _ _ h1)
    · exact h.told id f hid
  · rcases hcase r'.id f hid with ⟨he, rfl⟩ | hid
    · obtain rfl := hw.same r' hr' r hr he
      exact from_choose hf0 hf1
    · exact h.from' r' hr' f hid
  · rcases List.mem_append.mp hr' with hr' | hr'
    · exact hkeep _ (Or.inr (h.known r' hr'))
    · obtain rfl := List.mem_singleton.mp hr'
      exact hkeep _ (Or.inl rfl)

/-- **All records** are in order, one after the other. -/
theorem WellFormed.after (debug : Bool) (hw : WellFormed numVars falseId trueId l) :
    Readable debug numVars (.start falseId trueId) l ∧
      Learnt falseId trueId l l (Meaning.after (.start falseId trueId) l) := by
  have key : ∀ l₂ l₁ F, l = l₁ ++ l₂ → Learnt falseId trueId l l₁ F →
      Readable debug numVars F l₂ ∧ Learnt falseId trueId l l (F.after l₂) := by
    intro l₂
    induction l₂ with
    | nil =>
      intro l₁ F hl h
      rw [List.append_nil] at hl
      subst hl
      exact ⟨trivial, h⟩
    | cons r l₂ ih =>
      intro l₁ F hl h
      obtain ⟨hs, h'⟩ := h.step hw hl
      obtain ⟨hr, h''⟩ := ih (l₁ ++ [r]) _ (by rw [hl, List.append_assoc]; rfl) h'
      exact ⟨⟨hs debug, hr⟩, h''⟩
  exact key l [] _ rfl (.start hw)

/-- Such a stream can be read, and describes what it says about its last record. -/
theorem WellFormed.describes (debug : Bool) (hw : WellFormed numVars falseId trueId l) :
    Legible debug numVars (framed falseId trueId l) ∧ ∃ r f, l.getLast? = some r ∧
      Tells falseId trueId l r.id f ∧ Describes (framed falseId trueId l) f := by
  obtain ⟨hread, hl⟩ := hw.after debug
  obtain ⟨h0, h1⟩ := framed_word falseId trueId l
  obtain ⟨r, hr⟩ := Option.ne_none_iff_exists'.mp fun h => hw.nonempty (List.getLast?_eq_none_iff.mp h)
  obtain ⟨f, hf⟩ := Option.ne_none_iff_exists'.mp (hl.known r (List.mem_of_getLast? hr))
  refine ⟨⟨?_, ?_⟩, r, f, hr, hl.told _ _ hf, r, ?_, ?_⟩
  · rw [framed_length]
    exact Nat.le_add_right _ _
  · rw [framed_body, h0, h1]
    exact hread
  · rw [framed_body]
    exact hr
  · rw [framed_body, h0, h1]
    exact hf

end

/-- **A well-formed stream**, whoever wrote it, is answered with the node of the function that it
says its last record is, and every node goes on to stand for its function. -/
theorem Reach.deserialize_wellFormed {t m : Nat} {w : World} {σ ε : Type} {R : IoRead σ ε}
    {content : σ → List UInt8} {x : σ} {falseId trueId : UInt64} {l : List Record} (h : Reach t w)
    (hw : w.Whole) (hm : w.made m = true) (debug : Bool) (hR : Delivers R content)
    (hl : WellFormed (w.consts m).numVars falseId trueId l)
    (hx : content x = framed falseId trueId l) :
    ∃ r f, l.getLast? = some r ∧ Tells falseId trueId l r.id f ∧
      (∀ f', Tells falseId trueId l r.id f' → f' = f) ∧
      ∃ N, ∀ n, N ≤ n → ∃ b w' x',
        run (execRead R m t) (deserialize debug (w.consts m) n) (w, x) = .ok (.ok b, w', x') ∧
        w'.Stands m b f ∧ (∀ c, w'.Stands m c f → c = b) ∧
        ∀ k a f', w.made k = true → w.Stands k a f' → w'.Stands k a f' := by
  have hr := h.resting hw
  obtain ⟨hleg, r, f, hlast, htells, hdes⟩ := hl.describes debug
  rw [← hx] at hleg hdes
  refine ⟨r, f, hlast, htells, fun f' hf' => hl.functional hf' htells, (content x).length + 1,
    fun n hn => ?_⟩
  obtain ⟨b, w', x', hrun, hb, -⟩ := deserialize_returns hR (hr.now hm) (hr.idle m hm) hleg hdes t hn
  exact ⟨b, w', x', hrun, hb.stands, fun c hc => hb.only hm hc, fun k a f' hk ha =>
    hb.onward.stands k a f' hk ha (congrFun hb.frees a)⟩

/-- The variable `1`, twice, and a node above the two records that is redundant. -/
theorem wellFormed_redundant :
    WellFormed 2 1 2 [⟨3, 1, 1, 2⟩, ⟨4, 1, 1, 2⟩, ⟨5, 0, 3, 4⟩] := by
  refine ⟨by decide, by decide, fun l₁ r l₂ hl c hc => ?_, by decide, by decide, by decide⟩
  match l₁, hl with
  | [], hl =>
    obtain ⟨rfl, -⟩ := List.cons.inj hl
    exact hc.elim (fun h => Or.inl h) fun h => Or.inr (Or.inl h)
  | [r₀], hl =>
    obtain ⟨-, hl⟩ := List.cons.inj hl
    obtain ⟨rfl, -⟩ := List.cons.inj hl
    exact hc.elim (fun h => Or.inl h) fun h => Or.inr (Or.inl h)
  | [r₀, r₁], hl =>
    simp only [List.cons_append, List.nil_append, List.cons.injEq] at hl
    obtain ⟨rfl, rfl, rfl, -⟩ := hl
    refine Or.inr (Or.inr (hc.elim (fun h => ⟨⟨3, 1, 1, 2⟩, by decide, h.symm, by decide⟩)
      fun h => ⟨⟨4, 1, 1, 2⟩, by decide, h.symm, by decide⟩))
  | r₀ :: r₁ :: r₂ :: l₁, hl =>
    have := congrArg List.length hl
    simp only [List.length_cons, List.length_append, List.length_nil] at this
    omega

theorem Reach.deserialize_wellFormed_single : ∃ n b w' x',
    run (execRead (sliceRead ()) 0 0) (deserialize true ((single 8 8 2).consts 0) n) (single 8 8 2,
      framed 1 2 [⟨3, 1, 1, 2⟩, ⟨4, 1, 1, 2⟩, ⟨5, 0, 3, 4⟩]) = .ok (.ok b, w', x') := by
  obtain ⟨hr, hw, hm, -⟩ := single_source
  have hl := wellFormed_redundant
  rw [← single_numVars] at hl
  obtain ⟨r, f, -, -, -, N, hN⟩ := Reach.deserialize_wellFormed hr hw hm true
    (sliceRead_delivers ()) hl rfl
  obtain ⟨b, w', x', hrun, -⟩ := hN N (Nat.le_refl N)
  exact ⟨N, b, w', x', hrun⟩

end Manager

end Tobdd
