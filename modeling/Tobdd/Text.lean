import Tobdd.Cover

/-!
# The text of a function

`print` never looks at an address, so what it writes depends on the function alone: two handles, of
one manager or of two with as many variables, have the same text if and only if they stand for the
same function.

    cubes_eq: the lines of two nodes with one function are the same
    lines_injective: the lines are found again in the bytes
    Reach.print_eq_iff: what `print` writes for two handles
-/

namespace Tobdd

open Resume Diagram

namespace Manager

open World

/-- What `print` writes. -/
def textOf (g : Consts) (h : Heap) (a : Bdd) : List UInt8 :=
  if a = g.falseId then ['F', 'A', 'L', 'S', 'E', '\n'].flatMap String.utf8EncodeChar
  else if a = g.trueId then ['T', 'R', 'U', 'E', '\n'].flatMap String.utf8EncodeChar
  else (cubes g h g.numVars a 0).flatMap lineBytes

/-! ## The lines depend on the function alone -/

section
variable {g g' : Consts} {m m' : Nat} {w w' : World} {a a' : Bdd} {f f' : BoolFn}

/-- Where a `*` is written. -/
theorem Now.star_iff (hn : Now g m w) (ha : w.Stands m a f) (hF : a ≠ g.falseId) (curr : Nat) :
    curr < (w.heap.get a).level.toNat ∨ a = g.trueId ↔ From (curr + 1) f := by
  by_cases hT : a = g.trueId
  · have hf : f = fun _ => true := (hn.top_iff ha).mp hT
    constructor
    · intro _
      rw [hf]
      exact from_const _ true
    · intro _
      exact Or.inr hT
  · obtain ⟨f₀, f₁, hsp⟩ := hn.split ha hT hF
    constructor
    · intro h
      apply hsp.from_level.mono
      have hlt := h.resolve_right hT
      omega
    · intro hfrom
      have hge := hn.atLeast ha hfrom hT hF
      left
      omega

/-- **Nodes with one function**, be it in two managers. -/
theorem cubes_eq (hn : Now g m w) (hn' : Now g' m' w') (hv : g.numVars = g'.numVars) :
    ∀ d a a' curr f, w.Stands m a f → w'.Stands m' a' f → a ≠ g.falseId → a' ≠ g'.falseId →
      From curr f → curr + d = g.numVars → cubes g w.heap d a curr = cubes g' w'.heap d a' curr := by
  intro d
  induction d with
  | zero =>
    intro a a' curr f _ _ _ _ _ _
    rfl
  | succ d ih =>
    intro a a' curr f ha ha' hF hF' hfrom hcurr
    have hs := hn.star_iff ha hF curr
    have hs' := hn'.star_iff ha' hF' curr
    unfold cubes
    by_cases hnext : From (curr + 1) f
    · rw [if_pos (hs.mpr hnext), if_pos (hs'.mpr hnext), ih a a' (curr + 1) f ha ha' hF hF' hnext (by omega)]
    · rw [if_neg (mt hs.mp hnext), if_neg (mt hs'.mp hnext)]
      obtain ⟨hle, hT⟩ := not_or.mp (mt hs.mp hnext)
      obtain ⟨hle', hT'⟩ := not_or.mp (mt hs'.mp hnext)
      obtain ⟨f₀, f₁, hsp⟩ := hn.split ha hT hF
      obtain ⟨f₀', f₁', hsp'⟩ := hn'.split ha' hT' hF'
      have hlevel : (w.heap.get a).level.toNat = curr := by
        have := hn.atLeast ha hfrom hT hF
        omega
      have hlevel' : (w'.heap.get a').level.toNat = curr := by
        have := hn'.atLeast ha' hfrom hT' hF'
        omega
      have h0 := hsp.fromLow
      have h1 := hsp.fromHigh
      have h0' := hsp'.fromLow
      have h1' := hsp'.fromHigh
      have heq := hsp.eq
      have heq' := hsp'.eq
      rw [hlevel] at h0 h1 heq
      rw [hlevel'] at h0' h1' heq'
      -- both are a choice by this variable, between the same functions
      obtain ⟨rfl, rfl⟩ := choose_inj h0 h1 h0' h1' (heq.symm.trans heq')
      have hbranch : ∀ b b' c f, w.Stands m b f → w'.Stands m' b' f → From (curr + 1) f →
          (if b ≠ g.falseId then (cubes g w.heap d b (curr + 1)).map (c :: ·) else []) =
            if b' ≠ g'.falseId then (cubes g' w'.heap d b' (curr + 1)).map (c :: ·) else [] := by
        intro b b' c f hb hb' hf
        by_cases hzero : f = fun _ => false
        · rw [if_neg (not_not.mpr ((hn.bot_iff hb).mpr hzero)), if_neg (not_not.mpr ((hn'.bot_iff hb').mpr hzero))]
        · have hbF : b ≠ g.falseId := mt (hn.bot_iff hb).mp hzero
          have hbF' : b' ≠ g'.falseId := mt (hn'.bot_iff hb').mp hzero
          rw [if_pos hbF, if_pos hbF', ih b b' (curr + 1) f hb hb' hbF hbF' hf (by omega)]
      rw [hbranch _ _ '0' f₀ hsp.low hsp'.low h0, hbranch _ _ '1' f₁ hsp.high hsp'.high h1]

end

/-! ## The lines are found again -/

/-- The character of a byte. -/
def charOf (b : UInt8) : Char := Char.ofNat b.toNat

/-- A line as `print` writes them. -/
def Line (n : Nat) (l : List Char) : Prop := l.length = n ∧ ∀ c ∈ l, c = '0' ∨ c = '1' ∨ c = '*'

theorem map_lineBytes : ∀ l : List Char, (∀ c ∈ l, c = '0' ∨ c = '1' ∨ c = '*') →
    (lineBytes l).map charOf = l ++ ['\n'] := by
  intro l
  induction l with
  | nil =>
    intro _
    decide
  | cons c l ih =>
    intro hl
    have htail := ih fun c' hc' => hl c' (List.mem_cons_of_mem c hc')
    have hchar : (String.utf8EncodeChar c).map charOf = [c] := by
      rcases hl c List.mem_cons_self with rfl | rfl | rfl <;> decide
    show (String.utf8EncodeChar c ++ lineBytes l).map charOf = c :: (l ++ ['\n'])
    rw [List.map_append, hchar, htail]
    rfl

theorem Line.length_bytes {n : Nat} {l : List Char} (h : Line n l) : (lineBytes l).length = n + 1 := by
  have hmap := congrArg List.length (map_lineBytes l h.2)
  simpa [h.1] using hmap

theorem Line.bytes_injective {n : Nat} {l l' : List Char} (h : Line n l) (h' : Line n l')
    (he : lineBytes l = lineBytes l') : l = l' := by
  have hmap := congrArg (List.map charOf) he
  rw [map_lineBytes l h.2, map_lineBytes l' h'.2] at hmap
  exact List.append_cancel_right hmap

/-- **The lines are found again in the bytes.** -/
theorem lines_injective {n : Nat} : ∀ L L' : List (List Char), (∀ l ∈ L, Line n l) → (∀ l ∈ L', Line n l) →
    L.flatMap lineBytes = L'.flatMap lineBytes → L = L' := by
  -- no text of a line is empty
  have hcons : ∀ l L, Line n l → (l :: L).flatMap lineBytes ≠ [] := by
    intro l L hl he
    have hlen := congrArg List.length he
    rw [List.flatMap_cons, List.length_append, hl.length_bytes] at hlen
    simp at hlen
  intro L
  induction L with
  | nil =>
    intro L' _ hL' he
    cases L' with
    | nil => rfl
    | cons l' L' => exact absurd he.symm (hcons l' L' (hL' l' List.mem_cons_self))
  | cons l L ih =>
    intro L' hL hL' he
    have hl := hL l List.mem_cons_self
    cases L' with
    | nil => exact absurd he (hcons l L hl)
    | cons l' L' =>
      have hl' := hL' l' List.mem_cons_self
      rw [List.flatMap_cons, List.flatMap_cons] at he
      obtain ⟨hhead, htail⟩ := List.append_inj he (hl.length_bytes.trans hl'.length_bytes.symm)
      rw [hl.bytes_injective hl' hhead,
        ih L' (fun l h => hL l (List.mem_cons_of_mem _ h)) (fun l h => hL' l (List.mem_cons_of_mem _ h)) htail]

/-- No letter is in a line. -/
theorem not_mem_lines {n : Nat} {L : List (List Char)} (hL : ∀ l ∈ L, Line n l) {b : UInt8}
    (hb : charOf b ≠ '0' ∧ charOf b ≠ '1' ∧ charOf b ≠ '*' ∧ charOf b ≠ '\n') :
    b ∉ L.flatMap lineBytes := by
  intro hmem
  obtain ⟨l, hl, hbl⟩ := List.mem_flatMap.mp hmem
  have hc : charOf b ∈ l ++ ['\n'] := by
    rw [← map_lineBytes l (hL l hl).2]
    exact List.mem_map_of_mem hbl
  rcases List.mem_append.mp hc with hc | hc
  · rcases (hL l hl).2 _ hc with h | h | h
    · exact hb.1 h
    · exact hb.2.1 h
    · exact hb.2.2.1 h
  · exact hb.2.2.2 (List.mem_singleton.mp hc)

/-! ## print -/

section
variable {g g' : Consts} {m m' : Nat} {w w' : World} {a a' : Bdd} {f f' : BoolFn}

theorem run_print_textOf (hn : Now g m w) (ha : (w.store m).Live a) (ε : Type) (t : Nat) {n : Nat}
    (hlt : g.numVars < n) :
    run (execWrite (vecWrite ε) m t) (print g a n) (w, []) = .ok (.ok (), w, textOf g w.heap a) := by
  unfold textOf
  by_cases hF : a = g.falseId
  · rw [if_pos hF]
    unfold print
    rw [if_pos hF]
    rfl
  · by_cases hT : a = g.trueId
    · rw [if_neg hF, if_pos hT]
      unfold print
      rw [if_neg hF, if_pos hT]
      rfl
    · rw [if_neg hF, if_neg hT]
      exact run_print hn ha hT hF ε t hlt

/-- The text of an inner node has no letters. -/
theorem textOf_inner (w : World) (hT : a ≠ g.trueId) (hF : a ≠ g.falseId) :
    70 ∉ textOf g w.heap a ∧ 84 ∉ textOf g w.heap a := by
  have hlines : ∀ l ∈ cubes g w.heap g.numVars a 0, Line g.numVars l := cubes_shape w.heap g.numVars a 0
  unfold textOf
  rw [if_neg hF, if_neg hT]
  constructor
  · apply not_mem_lines hlines
    decide
  · apply not_mem_lines hlines
    decide

theorem textOf_bot (g : Consts) (h : Heap) : textOf g h g.falseId = [70, 65, 76, 83, 69, 10] := by
  unfold textOf
  rw [if_pos rfl]
  decide

theorem textOf_top (hne : g.trueId ≠ g.falseId) (h : Heap) :
    textOf g h g.trueId = [84, 82, 85, 69, 10] := by
  unfold textOf
  rw [if_neg hne, if_pos rfl]
  decide

theorem textOf_eq_bot (hne : g.trueId ≠ g.falseId) :
    textOf g w.heap a = [70, 65, 76, 83, 69, 10] ↔ a = g.falseId := by
  constructor
  · intro h
    by_contra hF
    by_cases hT : a = g.trueId
    · subst hT
      rw [textOf_top hne] at h
      cases h
    · apply (textOf_inner w hT hF).1
      rw [h]
      decide
  · rintro rfl
    exact textOf_bot g w.heap

theorem textOf_eq_top (hne : g.trueId ≠ g.falseId) :
    textOf g w.heap a = [84, 82, 85, 69, 10] ↔ a = g.trueId := by
  constructor
  · intro h
    by_contra hT
    by_cases hF : a = g.falseId
    · subst hF
      rw [textOf_bot] at h
      cases h
    · apply (textOf_inner w hT hF).2
      rw [h]
      decide
  · rintro rfl
    exact textOf_top hne w.heap

theorem from_zero (f : BoolFn) : From 0 f := by
  intro s s' hs
  apply congrArg f
  ext i
  rw [hs i (Nat.zero_le i)]

/-- The text determines the function. -/
theorem eq_of_textOf_eq (hn : Now g m w) (hn' : Now g' m' w') (hv : g.numVars = g'.numVars)
    (ha : w.Stands m a f) (ha' : w'.Stands m' a' f') (he : textOf g w.heap a = textOf g' w'.heap a') :
    f = f' := by
  have hne := hn.table.reduced.top_ne_bot
  have hne' := hn'.table.reduced.top_ne_bot
  have hbot : a = g.falseId ↔ a' = g'.falseId := by
    rw [← textOf_eq_bot hne (w := w), he, textOf_eq_bot hne']
  have htop : a = g.trueId ↔ a' = g'.trueId := by
    rw [← textOf_eq_top hne (w := w), he, textOf_eq_top hne']
  by_cases hF : a = g.falseId
  · rw [(hn.bot_iff ha).mp hF, (hn'.bot_iff ha').mp (hbot.mp hF)]
  · by_cases hT : a = g.trueId
    · rw [(hn.top_iff ha).mp hT, (hn'.top_iff ha').mp (htop.mp hT)]
    · have hF' := mt hbot.mpr hF
      have hT' := mt htop.mpr hT
      unfold textOf at he
      rw [if_neg hF, if_neg hT, if_neg hF', if_neg hT', ← hv] at he
      have hlines := lines_injective _ _ (cubes_shape w.heap g.numVars a 0) (cubes_shape w'.heap g.numVars a' 0) he
      ext s
      -- an assignment matches a line, or none, in both
      have hc := cubes_count hn s g.numVars a 0 f ha hF (from_zero f) (by omega)
      have hc' := cubes_count hn' s g.numVars a' 0 f' ha' hF' (from_zero f') (by omega)
      rw [hlines, hc'] at hc
      cases hf : f s <;> cases hf' : f' s <;> simp [hf, hf'] at hc ⊢

/-- The function determines the text. -/
theorem textOf_eq_of_eq (hn : Now g m w) (hn' : Now g' m' w') (hv : g.numVars = g'.numVars)
    (ha : w.Stands m a f) (ha' : w'.Stands m' a' f) : textOf g w.heap a = textOf g' w'.heap a' := by
  have hbot : a = g.falseId ↔ a' = g'.falseId := (hn.bot_iff ha).trans (hn'.bot_iff ha').symm
  have htop : a = g.trueId ↔ a' = g'.trueId := (hn.top_iff ha).trans (hn'.top_iff ha').symm
  unfold textOf
  by_cases hF : a = g.falseId
  · rw [if_pos hF, if_pos (hbot.mp hF)]
  · by_cases hT : a = g.trueId
    · rw [if_neg hF, if_pos hT, if_neg (mt hbot.mpr hF), if_pos (htop.mp hT)]
    · have hF' := mt hbot.mpr hF
      rw [if_neg hF, if_neg hT, if_neg hF', if_neg (mt htop.mpr hT), ← hv,
        cubes_eq hn hn' hv g.numVars a a' 0 f ha ha' hF hF' (from_zero f) (by omega)]

end

/-- **The text stands for the function**: what `print` writes for two handles, in two states of any
processes, is the same if and only if they stand for the same function. -/
theorem Reach.print_eq_iff {t m t' m' : Nat} {w w' : World} {a a' : Bdd} {f f' : BoolFn}
    (h : Reach t w) (hw : w.Whole) (hm : w.made m = true) (ha : w.Stands m a f)
    (h' : Reach t' w') (hw' : w'.Whole) (hm' : w'.made m' = true) (ha' : w'.Stands m' a' f')
    (hv : (w.consts m).numVars = (w'.consts m').numVars) :
    ∃ out out' N, (∀ n, N ≤ n →
      run (execWrite (vecWrite Unit) m t) (print (w.consts m) a n) (w, []) = .ok (.ok (), w, out) ∧
      run (execWrite (vecWrite Unit) m' t') (print (w'.consts m') a' n) (w', []) =
        .ok (.ok (), w', out')) ∧
      (out = out' ↔ f = f') := by
  have hn := (h.resting hw).now hm
  have hn' := (h'.resting hw').now hm'
  refine ⟨textOf (w.consts m) w.heap a, textOf (w'.consts m') w'.heap a', (w.consts m).numVars + 1, ?_, ?_⟩
  · intro n hle
    exact ⟨run_print_textOf hn ha.1 Unit t (by omega), run_print_textOf hn' ha'.1 Unit t' (by omega)⟩
  · constructor
    · exact eq_of_textOf_eq hn hn' hv ha ha'
    · rintro rfl
      exact textOf_eq_of_eq hn hn' hv ha ha'

/-- The first variable in two managers whose tables have different sizes. -/
theorem Reach.print_eq_iff_single : ∃ a a' out n,
    run (execWrite (vecWrite Unit) 0 0) (print ((single 8 8 2).consts 0) a n) (single 8 8 2, []) =
      .ok (.ok (), single 8 8 2, out) ∧
    run (execWrite (vecWrite Unit) 0 0) (print ((single 16 8 2).consts 0) a' n) (single 16 8 2, []) =
      .ok (.ok (), single 16 8 2, out) := by
  obtain ⟨hr, hw, hm⟩ := single_ready 8 8 2 (by decide) (by decide)
  obtain ⟨hr', hw', hm'⟩ := single_ready 16 8 2 (by decide) (by decide)
  obtain ⟨hf, -⟩ := single_founded 8 8 2 (by decide) (by decide)
  obtain ⟨hf', -⟩ := single_founded 16 8 2 (by decide) (by decide)
  obtain ⟨a, -, ha⟩ := hf.var 0 (by decide)
  obtain ⟨a', -, ha'⟩ := hf'.var 0 (by decide)
  obtain ⟨out, out', N, hrun, heq⟩ := Reach.print_eq_iff hr hw hm ha hr' hw' hm' ha'
    (hf.numVars.trans hf'.numVars.symm)
  obtain rfl : out = out' := heq.mpr rfl
  exact ⟨a, a', out, N, hrun N (Nat.le_refl N)⟩

end Manager

end Tobdd
