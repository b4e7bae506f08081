import Tobdd.RoundTrip

/-!
# What print writes

`cubes`: the lines, each as the characters from a position on; `print` writes these
(`wp_fmtRec`).  `covers`: an assignment matches a line.

    cubes_count: an assignment matches one of the lines if it satisfies the function of the
                 node, and none if it does not
    Reach.print_covers: ... and so it is for the lines that `print` writes
-/

namespace Tobdd

open Resume Diagram

namespace Manager

open World

/-- The lines for the node `a`, from position `curr` on, where `d` characters are left. -/
def cubes (g : Consts) (h : Heap) : Nat → Bdd → Nat → List (List Char)
  | 0, _, _ => [[]]
  | d + 1, a, curr =>
    if curr < (h.get a).level.toNat ∨ a = g.trueId then
      (cubes g h d a (curr + 1)).map ('*' :: ·)
    else
      (if (h.get a).low ≠ g.falseId then (cubes g h d (h.get a).low (curr + 1)).map ('0' :: ·)
        else []) ++
      (if (h.get a).high ≠ g.falseId then (cubes g h d (h.get a).high (curr + 1)).map ('1' :: ·)
        else [])

/-- The assignment `s` matches the characters, the first of which is for variable `i`. -/
def covers (s : Nat → Bool) : Nat → List Char → Bool
  | _, [] => true
  | i, c :: l => (c == '*' || c == if s i then '1' else '0') && covers s (i + 1) l

/-- The bytes of a line. -/
def lineBytes (l : List Char) : List UInt8 := (l ++ ['\n']).flatMap String.utf8EncodeChar

section
variable {ε α : Type} {g : Consts} {m t : Nat} {tol : Prop} {w : World} {a : Bdd} {f : BoolFn}

/-! ## What is written -/

theorem wp_writeFmt {s : List Char} {k : Except ε Unit → Prog (writeOps ε) α}
    {Q : α → World × List UInt8 → Prop} {out : List UInt8}
    (h : wp (writing ε m t tol) (k (.ok ())) Q (w, out ++ s.flatMap String.utf8EncodeChar)) :
    wp (writing ε m t tol) (writeFmt s >>= k) Q (w, out) :=
  wp_writeOp (o := .writeAll _) (r := .ok ()) rfl h

theorem wp_writeChars : ∀ (l : List Char) (out : List UInt8),
    wp (writing ε m t tol) (writeChars l)
      (fun r x => r = .ok () ∧ x = (w, out ++ l.flatMap String.utf8EncodeChar)) (w, out) := by
  intro l
  induction l with
  | nil =>
    intro out
    refine ⟨rfl, ?_⟩
    rw [List.flatMap_nil, List.append_nil]
  | cons c l ih =>
    intro out
    unfold writeChars
    refine wp_writeFmt (wp_mono ?_ (ih _))
    rintro r x ⟨rfl, rfl⟩
    refine ⟨rfl, ?_⟩
    rw [List.append_assoc, ← List.flatMap_append]
    rfl

/-- A place of the buffer is written. -/
theorem wp_setChar {chars : List Char} {i : Nat} {c : Char} {k : List Char → Prog (writeOps ε) α}
    {Q : α → World × List UInt8 → Prop} {x : World × List UInt8} (hi : i < chars.length)
    (h : wp (writing ε m t tol) (k (chars.set i c)) Q x) :
    wp (writing ε m t tol) (setChar chars i c >>= k) Q x := by
  unfold setChar
  rw [if_pos hi]
  exact h

theorem take_set {chars : List Char} {i : Nat} (c : Char) (hi : i < chars.length) :
    (chars.set i c).take (i + 1) = chars.take i ++ [c] := by
  have hlen : i < (chars.set i c).length := by
    rw [List.length_set]
    exact hi
  rw [List.take_succ_eq_append_getElem hlen, List.getElem_set_self, List.take_set_of_le (Nat.le_refl i)]

/-- What `fmt_rec` has done: the lines are written, and the buffer is as it was up to `curr`. -/
structure Formatted (g : Consts) (w : World) (d : Nat) (a : Bdd) (curr : Nat) (chars : List Char)
    (out : List UInt8) (r : Except ε (List Char)) (x : World × List UInt8) : Prop where
  result : ∃ chars', r = .ok chars' ∧ chars'.length = chars.length ∧
    chars'.take curr = chars.take curr
  written : x = (w, out ++ (cubes g w.heap d a curr).flatMap fun s => lineBytes (chars.take curr ++ s))

/-- One branch: a character is set, and the rest is written. -/
theorem wp_branch {d n curr : Nat} {chars : List Char} {c : Char} {out : List UInt8}
    (hi : curr < chars.length)
    (h : ∀ chars' out', chars'.length = chars.length →
      wp (writing ε m t tol) (fmtRec g n chars' a (curr + 1))
        (Formatted g w d a (curr + 1) chars' out') (w, out')) :
    wp (writing ε m t tol) (do
      let chars ← setChar chars curr c
      fmtRec g n chars a (curr + 1)) (fun r x => (∃ chars', r = .ok chars' ∧
        chars'.length = chars.length ∧ chars'.take curr = chars.take curr) ∧
      x = (w, out ++ ((cubes g w.heap d a (curr + 1)).map (c :: ·)).flatMap
        fun s => lineBytes (chars.take curr ++ s))) (w, out) := by
  refine wp_setChar hi (wp_mono ?_ (h _ out (List.length_set ..)))
  rintro r x ⟨⟨chars', rfl, hlen, htake⟩, rfl⟩
  rw [take_set c hi] at htake
  refine ⟨⟨chars', rfl, hlen.trans (List.length_set ..), ?_⟩, ?_⟩
  · have := congrArg (List.take curr) htake
    rw [List.take_take, Nat.min_eq_left (Nat.le_succ curr)] at this
    rw [this]
    exact List.take_left' (by rw [List.length_take, Nat.min_eq_left (Nat.le_of_lt hi)])
  · rw [take_set c hi, List.flatMap_map]
    simp only [List.append_assoc, List.singleton_append]

/-- **`fmt_rec`.** -/
theorem wp_fmtRec (hn : Now g m w) : ∀ d n a curr chars out, (w.store m).Live a → a ≠ g.falseId →
    curr + d = g.numVars → chars.length = g.numVars → (tol ∨ d < n) →
    wp (writing ε m t tol) (fmtRec g n chars a curr) (Formatted g w d a curr chars out)
      (w, out) := by
  intro d
  induction d with
  | zero =>
    intro n a curr chars out _ _ hcurr hlen hfuel
    cases n with
    | zero =>
      rintro x rfl
      exact Logic.Does.of_error trivial rfl ⟨rfl, hfuel.resolve_right (Nat.not_lt_zero _)⟩
    | succ n =>
      unfold fmtRec
      rw [if_pos (show curr = g.numVars from hcurr)]
      refine wp_seq (wp_writeChars _ out) ?_
      rintro _ _ ⟨rfl, rfl⟩
      refine wp_writeFmt ⟨⟨chars, rfl, rfl, rfl⟩, ?_⟩
      rw [show curr = g.numVars from hcurr]
      unfold cubes lineBytes
      simp only [List.flatMap_cons, List.flatMap_nil, List.append_nil, List.nil_append,
        List.flatMap_append, List.append_assoc]
  | succ d ih =>
    intro n a curr chars out ha hF hcurr hlen hfuel
    cases n with
    | zero =>
      rintro x rfl
      exact Logic.Does.of_error trivial rfl ⟨rfl, hfuel.resolve_right (Nat.not_lt_zero _)⟩
    | succ n =>
      have hfuel' : tol ∨ d < n := hfuel.imp_right Nat.lt_of_succ_lt_succ
      have hi : curr < chars.length := by omega
      have hhas := hn.table.nodes.has a ha
      have hrec : ∀ b, (w.store m).Live b → b ≠ g.falseId → ∀ chars' out',
          chars'.length = chars.length →
          wp (writing ε m t tol) (fmtRec g n chars' b (curr + 1))
            (Formatted g w d b (curr + 1) chars' out') (w, out') := fun b hb hbF chars' out' hc =>
        ih n b (curr + 1) chars' out' hb hbF (by omega) (hc.trans hlen) hfuel'
      unfold fmtRec
      rw [if_neg (show ¬ curr = g.numVars by omega)]
      refine wp_field (o := .level a) (v := (w.heap.get a).level) (Store.exec_field hhas rfl) ?_
      refine wp_ite _ (fun hstar => ?_) fun hstar => ?_
      · refine wp_mono ?_ (wp_branch hi (hrec a ha hF))
        rintro r x ⟨hr, rfl⟩
        refine ⟨hr, ?_⟩
        rw [cubes, if_pos hstar]
      · have hin : ¬ (a = g.trueId ∨ a = g.falseId) :=
          not_or.mpr ⟨fun h => hstar (Or.inr h), hF⟩
        obtain ⟨⟨hl, -⟩, hh, -⟩ := hn.children ha hin
        refine wp_field (o := .low a) (v := (w.heap.get a).low) (Store.exec_field hhas rfl) ?_
        refine wp_field (o := .high a) (v := (w.heap.get a).high) (Store.exec_field hhas rfl) ?_
        -- the low branch
        refine wp_seq (P := fun r x => (∃ chars', r = .ok chars' ∧
          chars'.length = chars.length ∧ chars'.take curr = chars.take curr) ∧
          x = (w, out ++ (if (w.heap.get a).low ≠ g.falseId then
            (cubes g w.heap d (w.heap.get a).low (curr + 1)).map ('0' :: ·) else []).flatMap
              fun s => lineBytes (chars.take curr ++ s))) ?_ ?_
        · refine wp_ite _ (fun h => ?_) fun h => ?_
          · rw [if_pos h]
            exact wp_branch hi (hrec _ hl h)
          · rw [if_neg h]
            refine ⟨⟨chars, rfl, rfl, rfl⟩, ?_⟩
            rw [List.flatMap_nil, List.append_nil]
        rintro _ _ ⟨⟨chars', rfl, hlen', htake'⟩, rfl⟩
        -- the high branch
        refine wp_ite _ (fun h => ?_) fun h => ?_
        · refine wp_mono ?_ (wp_branch (hlen' ▸ hi) fun chars₂ out₂ hc =>
            hrec _ hh h chars₂ out₂ (hc.trans hlen'))
          rintro r x ⟨⟨chars₂, rfl, hlen₂, htake₂⟩, rfl⟩
          refine ⟨⟨chars₂, rfl, hlen₂.trans hlen', htake₂.trans htake'⟩, ?_⟩
          rw [cubes, if_neg hstar, if_pos h, List.flatMap_append, htake', List.append_assoc]
        · refine ⟨⟨chars', rfl, hlen', htake'⟩, ?_⟩
          rw [cubes, if_neg hstar, if_neg h, List.append_nil]

/-! ## What the lines cover -/

theorem cubes_shape (h : Heap) : ∀ d a curr, ∀ l ∈ cubes g h d a curr,
    l.length = d ∧ ∀ c ∈ l, c = '0' ∨ c = '1' ∨ c = '*' := by
  intro d
  induction d with
  | zero =>
    intro a curr l hl
    obtain rfl := List.mem_singleton.mp hl
    exact ⟨rfl, fun c hc => absurd hc List.not_mem_nil⟩
  | succ d ih =>
    -- one character more in front
    have hcons : ∀ {c b curr l}, (c = '0' ∨ c = '1' ∨ c = '*') →
        l ∈ (cubes g h d b curr).map (c :: ·) →
        l.length = d + 1 ∧ ∀ c ∈ l, c = '0' ∨ c = '1' ∨ c = '*' := by
      intro c b curr l hc hl
      obtain ⟨l', hl', rfl⟩ := List.mem_map.mp hl
      obtain ⟨h1, h2⟩ := ih b curr l' hl'
      refine ⟨congrArg (· + 1) h1, fun c' hc' => ?_⟩
      rcases List.mem_cons.mp hc' with rfl | hc'
      · exact hc
      · exact h2 c' hc'
    intro a curr l hl
    unfold cubes at hl
    split at hl
    · exact hcons (Or.inr (Or.inr rfl)) hl
    · rcases List.mem_append.mp hl with hl | hl
      · split at hl
        · exact hcons (Or.inl rfl) hl
        · exact absurd hl List.not_mem_nil
      · split at hl
        · exact hcons (Or.inr (Or.inl rfl)) hl
        · exact absurd hl List.not_mem_nil

theorem countP_star (s : Nat → Bool) (i : Nat) (l : List (List Char)) :
    (l.map ('*' :: ·)).countP (covers s i) = l.countP (covers s (i + 1)) := by
  rw [List.countP_map]
  rfl

theorem countP_digit (s : Nat → Bool) (i : Nat) (b : Bool) (l : List (List Char)) :
    (l.map ((if b then '1' else '0') :: ·)).countP (covers s i) =
      if s i = b then l.countP (covers s (i + 1)) else 0 := by
  rw [List.countP_map]
  by_cases h : s i = b
  · rw [if_pos h]
    refine List.countP_congr fun c _ => ?_
    show ((_ == '*' || _ == if s i then '1' else '0') && covers s (i + 1) c) = true ↔ _
    rw [h]
    cases b <;> rfl
  · rw [if_neg h]
    refine List.countP_eq_zero.mpr fun c _ hc => ?_
    change ((_ == '*' || _ == if s i then '1' else '0') && covers s (i + 1) c) = true at hc
    cases hb : b <;> cases hs : s i
    · exact h (hs.trans hb.symm)
    · rw [hb, hs] at hc
      cases hc
    · rw [hb, hs] at hc
      cases hc
    · exact h (hs.trans hb.symm)

/-- A node whose function looks at no variable before `curr` has none of their levels. -/
theorem Now.atLeast (hn : Now g m w) (ha : w.Stands m a f) {curr : Nat} (hf : From curr f)
    (hT : a ≠ g.trueId) (hF : a ≠ g.falseId) : curr ≤ (w.heap.get a).level.toNat := by
  have ht := hn.table
  have ha' := hn.stands_iff.mp ha
  have hle : curr ≤ (w.heap.get a).lvl :=
    ht.reduced.atLeast ha'.1 ha'.2 hf ⟨ht.nodes.has a ha'.1, hT, hF⟩
  have hlv : (w.heap.get a).lvl = (w.heap.get a).level.toNat := ht.nodes.lvl_eq ha'.1
  rwa [hlv] at hle

/-- **An assignment matches one line** from position `curr` on if it satisfies the function of
the node, and none if not. -/
theorem cubes_count (hn : Now g m w) (s : Nat → Bool) : ∀ d a curr f, w.Stands m a f →
    a ≠ g.falseId → From curr f → curr + d = g.numVars →
    (cubes g w.heap d a curr).countP (covers s curr) = if f s then 1 else 0 := by
  intro d
  induction d with
  | zero =>
    intro a curr f ha hF hfrom hcurr
    -- all variables are behind, so the function is constant
    have htop : a = g.trueId := by
      by_contra hT
      obtain ⟨f₀, f₁, hsp⟩ := hn.split ha hT hF
      have := hn.atLeast ha hfrom hT hF
      have := hsp.bound
      omega
    rw [(hn.top_iff ha).mp htop]
    rfl
  | succ d ih =>
    intro a curr f ha hF hfrom hcurr
    unfold cubes
    split
    · next hstar =>
      rw [countP_star]
      refine ih a (curr + 1) f ha hF ?_ (by omega)
      by_cases hT : a = g.trueId
      · rw [(hn.top_iff ha).mp hT]
        exact from_const _ true
      · obtain ⟨f₀, f₁, hsp⟩ := hn.split ha hT hF
        rw [hsp.eq]
        exact (from_choose hsp.fromLow hsp.fromHigh).mono (hstar.resolve_right hT)
    · next hstar =>
      obtain ⟨hlt, hT⟩ := not_or.mp hstar
      obtain ⟨f₀, f₁, hsp⟩ := hn.split ha hT hF
      have hge := hn.atLeast ha hfrom hT hF
      have hlevel : (w.heap.get a).level.toNat = curr := by omega
      -- one branch, which has no lines if its function is 0
      have hbranch : ∀ c f (b : Bool), w.Stands m c f → From (curr + 1) f →
          (if c ≠ g.falseId then (cubes g w.heap d c (curr + 1)).map ((if b then '1' else '0') :: ·)
            else []).countP (covers s curr) = if s curr = b then (if f s then 1 else 0) else 0 := by
        intro c f b hc hf
        split
        · next hcF => rw [countP_digit, ih c (curr + 1) f hc hcF hf (by omega)]
        · next hcF =>
          rw [(hn.bot_iff hc).mp (not_not.mp hcF), List.countP_nil]
          split <;> rfl
      have h0 := hbranch _ f₀ false hsp.low (hlevel ▸ hsp.fromLow)
      have h1 := hbranch _ f₁ true hsp.high (hlevel ▸ hsp.fromHigh)
      simp only [Bool.false_eq_true, if_false] at h0
      simp only [if_true] at h1
      rw [List.countP_append, h0, h1, hsp.eq]
      unfold choose
      rw [hlevel]
      cases s curr <;> simp

/-! ## print -/

/-- With enough rounds `print` has written the lines. -/
theorem run_print (hn : Now g m w) (ha : (w.store m).Live a) (hT : a ≠ g.trueId)
    (hF : a ≠ g.falseId) (ε : Type) (t : Nat) {n : Nat} (hlt : g.numVars < n) :
    run (execWrite (vecWrite ε) m t) (print g a n) (w, []) =
      .ok (.ok (), w, (cubes g w.heap g.numVars a 0).flatMap lineBytes) := by
  have h : wp (writing ε m t False) (print g a n) (fun r x => r = .ok () ∧
      x = (w, (cubes g w.heap g.numVars a 0).flatMap lineBytes)) (w, []) := by
    unfold print
    rw [if_neg hF, if_neg hT]
    refine wp_seq (wp_fmtRec hn g.numVars n a 0 _ [] ha hF (Nat.zero_add _) (List.length_replicate ..)
      (Or.inr hlt)) ?_
    rintro _ _ ⟨⟨chars, rfl, -, -⟩, rfl⟩
    exact ⟨rfl, rfl⟩
  rcases wp_run (fun _ => trivial) (fun _ _ _ _ _ => trivial) h with
    ⟨_, _, hrun, ⟨rfl, rfl⟩, -⟩ | ⟨_, _, -, ⟨-, hs⟩, -⟩
  · exact hrun
  · exact hs.elim

end

/-- **`print` writes a disjoint cover**: lines of one character for each variable, such that an
assignment matches exactly one of them if it satisfies the function, and none if not. -/
theorem Reach.print_covers {t m : Nat} {w : World} {a : Bdd} {f : BoolFn} (h : Reach t w)
    (hw : w.Whole) (hm : w.made m = true) (ha : w.Stands m a f)
    (hT : a ≠ (w.consts m).trueId) (hF : a ≠ (w.consts m).falseId) :
    ∃ lines : List (List Char),
      (∃ N, ∀ n, N ≤ n → run (execWrite (vecWrite Unit) m t) (print (w.consts m) a n) (w, []) =
        .ok (.ok (), w, lines.flatMap lineBytes)) ∧
      (∀ l ∈ lines, l.length = (w.consts m).numVars ∧ ∀ c ∈ l, c = '0' ∨ c = '1' ∨ c = '*') ∧
      ∀ s, lines.countP (covers s 0) = if f s then 1 else 0 := by
  have hn := (h.resting hw).now hm
  refine ⟨cubes (w.consts m) w.heap (w.consts m).numVars a 0, ⟨(w.consts m).numVars + 1,
    fun n hlt => run_print hn ha.1 hT hF Unit t hlt⟩, cubes_shape w.heap _ a 0, fun s => ?_⟩
  exact cubes_count hn s _ a 0 f ha hF (fun s s' hs => congrArg f (funext fun i => hs i (Nat.zero_le i)))
    (Nat.zero_add _)

theorem Reach.print_covers_single : ∃ (a : Bdd) (lines : List (List Char)) (n : Nat),
    run (execWrite (vecWrite Unit) 0 0) (print ((single 8 8 2).consts 0) a n) (single 8 8 2, []) =
      .ok (.ok (), single 8 8 2, lines.flatMap lineBytes) ∧
    ∀ s, lines.countP (covers s 0) = if s 0 then 1 else 0 := by
  obtain ⟨hr, hw, hm, -, a, ha, hT, hF⟩ := single_source
  obtain ⟨lines, ⟨N, hN⟩, -, hcov⟩ := Reach.print_covers hr hw hm ha hT hF
  exact ⟨a, lines, N, hN N (Nat.le_refl N), hcov⟩

end Manager

end Tobdd
