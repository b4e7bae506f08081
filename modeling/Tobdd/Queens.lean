import Tobdd.Client

/-!
# The benchmark: n queens

`build_n_queens` conjoins, one after the other, what the rows, the columns and the diagonals of a
chessboard ask for.  Variable `row * n + col` says that there is a queen on that square.

    wp_exactlyOne: `exactly_one` stands for "exactly one of these variables"
    buildNQueens_solutions: the result stands for the placements of `n` queens of which no two
      attack each other, and nothing but the reference to it is left to give back
-/

namespace Tobdd

open Resume Diagram

namespace Client

open Manager World

/-! ## The constraints -/

def andInplace (lhs rhs : BddRef) : Prog calls BddRef := do
  let tmp : Bdd ← call (.and lhs.id rhs.id)
  release lhs
  release rhs
  return ⟨tmp, true⟩

def orVars (g : Consts) (vars : List Nat) : Prog calls BddRef := do
  let var : Nat ← index vars 0
  let first : Bdd ← getVar g var
  Prog.forEach (fun var acc => do
    let v : Bdd ← getVar g var
    let tmp : Bdd ← call (.or acc.id v)
    release acc
    return ⟨tmp, true⟩) (vars.drop 1) (⟨first, false⟩ : BddRef)

def atMostOne (g : Consts) (vars : List Nat) : Prog calls BddRef :=
  if vars.length < 2 then return ⟨g.trueId, false⟩
  else
    Prog.forRange (vars.length - 1) (fun i acc => do
      let var : Nat ← index vars i
      let ni : Bdd ← getNvar g var
      Prog.forFrom (fun j acc => do
        let var : Nat ← index vars j
        let nj : Bdd ← getNvar g var
        let clause : Bdd ← call (.or ni nj)
        andInplace acc ⟨clause, true⟩) (i + 1) (vars.length - (i + 1)) acc)
      (⟨g.trueId, false⟩ : BddRef)

def exactlyOne (g : Consts) (vars : List Nat) : Prog calls BddRef := do
  let atLeast ← orVars g vars
  let atMost ← atMostOne g vars
  let both : Bdd ← call (.and atLeast.id atMost.id)
  release atLeast
  release atMost
  return ⟨both, true⟩

/-! ## The board -/

def varIndex (n row col : Nat) : Nat := row * n + col

def rowVars (n row : Nat) : List Nat := (List.range n).map fun col => varIndex n row col

def colVars (n col : Nat) : List Nat := (List.range n).map fun row => varIndex n row col

def diagVars (n : Nat) (diag : Int) : List Nat :=
  (List.range n).filterMap fun (row : Nat) =>
    let col := (row : Int) - diag
    if 0 ≤ col ∧ col < n then some (varIndex n row col.toNat) else none

def antiDiagVars (n sum : Nat) : List Nat :=
  (List.range n).filterMap fun row =>
    if row ≤ sum then
      let col := sum - row
      if col < n then some (varIndex n row col) else none
    else none

def buildNQueens (g : Consts) (n : Nat) : Prog calls BddRef := do
  let acc ← Prog.forRange n (fun row acc => do
    let constraint ← exactlyOne g (rowVars n row)
    andInplace acc constraint) (⟨g.trueId, false⟩ : BddRef)
  let acc ← Prog.forRange n (fun col acc => do
    let constraint ← atMostOne g (colVars n col)
    andInplace acc constraint) acc
  -- `-max_diag..=max_diag`
  let maxDiag : Int := (n : Int) - 1
  let acc ← Prog.forRange (2 * maxDiag + 1).toNat (fun k acc =>
    let vars := diagVars n (-maxDiag + k)
    if 2 ≤ vars.length then do
      let constraint ← atMostOne g vars
      andInplace acc constraint
    else return acc) acc
  Prog.forRange (wrapSub (2 * n) 2 + 1) (fun sum acc =>
    let vars := antiDiagVars n sum
    if 2 ≤ vars.length then do
      let constraint ← atMostOne g vars
      andInplace acc constraint
    else return acc) acc

/-! ## What they stand for -/

/-- The pairs of places that the loops of `at_most_one` have gone through. -/
def Apart (x : Nat → Bool) (vars : List Nat) (i j : Nat) : Prop :=
  ∀ p q a b, p < q → vars[p]? = some a → vars[q]? = some b → (p < i ∨ p = i ∧ q < j) →
    ¬ (x a = true ∧ x b = true)

section
variable {x : Nat → Bool} {vars : List Nat} {i j : Nat}

theorem apart_start : Apart x vars 0 1 := by
  intro p q a b hpq _ _ hbefore
  omega

/-- One more clause. -/
theorem apart_succ {a b : Nat} (hij : i < j) (ha : vars[i]? = some a) (hb : vars[j]? = some b) :
    Apart x vars i (j + 1) ↔ Apart x vars i j ∧ (x a = false ∨ x b = false) := by
  constructor
  · intro h
    constructor
    · intro p q a' b' hpq hp hq hbefore
      exact h p q a' b' hpq hp hq (by omega)
    · have hab := h i j a b hij ha hb (by omega)
      rcases Bool.eq_false_or_eq_true (x a) with hx | hx
      · right
        by_contra hne
        exact hab ⟨hx, by simpa using hne⟩
      · exact Or.inl hx
  · rintro ⟨h, hab⟩ p q a' b' hpq hp hq hbefore ⟨hxa, hxb⟩
    by_cases hpair : p = i ∧ q = j
    · obtain ⟨rfl, rfl⟩ := hpair
      rw [ha] at hp
      rw [hb] at hq
      obtain rfl := Option.some.inj hp
      obtain rfl := Option.some.inj hq
      rcases hab with h0 | h0
      · rw [hxa] at h0
        cases h0
      · rw [hxb] at h0
        cases h0
    · exact h p q a' b' hpq hp hq (by omega) ⟨hxa, hxb⟩

/-- After the inner loop. -/
theorem apart_next : Apart x vars i vars.length ↔ Apart x vars (i + 1) (i + 2) := by
  constructor
  · intro h p q a b hpq hp hq hbefore
    have hlt := (List.getElem?_eq_some_iff.mp hq).1
    exact h p q a b hpq hp hq (by omega)
  · intro h p q a b hpq hp hq hbefore
    exact h p q a b hpq hp hq (by omega)

theorem countP_le_one_iff {α : Type} (f : α → Bool) (l : List α) :
    l.countP f ≤ 1 ↔ l.Pairwise fun a b => ¬ (f a = true ∧ f b = true) := by
  induction l with
  | nil => simp
  | cons a l ih =>
    rw [List.countP_cons, List.pairwise_cons]
    cases ha : f a with
    | true =>
      have hzero : l.countP f + 1 ≤ 1 ↔ ∀ b ∈ l, ¬ (f b = true) := by
        rw [← List.countP_eq_zero]
        omega
      simp only [if_true, hzero, true_and]
      constructor
      · intro h
        refine ⟨h, ih.mp ?_⟩
        rw [List.countP_eq_zero.mpr h]
        omega
      · rintro ⟨h, -⟩
        exact h
    | false => simpa using ih

/-- After the outer loop. -/
theorem apart_end : Apart x vars (vars.length - 1) vars.length ↔ vars.countP x ≤ 1 := by
  rw [countP_le_one_iff, List.pairwise_iff_getElem]
  constructor
  · intro h p q hp hq hpq
    exact h p q _ _ hpq (List.getElem?_eq_getElem hp) (List.getElem?_eq_getElem hq) (by omega)
  · intro h p q a b hpq ha hb _
    obtain ⟨hp, rfl⟩ := List.getElem?_eq_some_iff.mp ha
    obtain ⟨hq, rfl⟩ := List.getElem?_eq_some_iff.mp hb
    exact h p q hp hq hpq

end

/-! ## The lines of the board -/

/-- Queens in the rows of a board, in row `r` in column `q r`, of which no two attack each other. -/
structure Placement (n : Nat) (q : Nat → Nat) : Prop where
  inside : ∀ r, r < n → q r < n
  column : ∀ r r', r < r' → r' < n → q r ≠ q r'
  diagonal : ∀ r r', r < r' → r' < n → (q r' : Int) - q r ≠ r' - r
  antiDiagonal : ∀ r r', r < r' → r' < n → (q r : Int) - q r' ≠ r' - r

/-- The variables describe a placement. -/
def Solves (n : Nat) (x : Nat → Bool) : Prop :=
  ∃ q, Placement n q ∧ ∀ r c, r < n → c < n → (x (varIndex n r c) = true ↔ c = q r)

section
variable {n : Nat} {x : Nat → Bool}

theorem range_le_one_iff (f : Nat → Bool) :
    (List.range n).countP f ≤ 1 ↔ ∀ r r', r < r' → r' < n → ¬ (f r = true ∧ f r' = true) := by
  rw [countP_le_one_iff, List.pairwise_iff_getElem]
  constructor
  · intro h r r' hlt hn
    have hr := h r r' (by simp; omega) (by simpa using hn) hlt
    simpa using hr
  · intro h r r' hr hr' hlt
    simp only [List.getElem_range]
    exact h r r' hlt (by simpa using hr')

theorem range_eq_one_iff (f : Nat → Bool) :
    (List.range n).countP f = 1 ↔ ∃ c, c < n ∧ ∀ c', c' < n → (f c' = true ↔ c' = c) := by
  have hpos : 0 < (List.range n).countP f ↔ ∃ c ∈ List.range n, f c = true := List.countP_pos_iff
  constructor
  · intro h
    obtain ⟨c, hc, hf⟩ := hpos.mp (by omega)
    have hone := (range_le_one_iff f).mp (Nat.le_of_eq h)
    rw [List.mem_range] at hc
    refine ⟨c, hc, ?_⟩
    intro c' hc'
    constructor
    · intro hf'
      rcases Nat.lt_trichotomy c' c with hlt | heq | hlt
      · exact absurd ⟨hf', hf⟩ (hone c' c hlt hc)
      · exact heq
      · exact absurd ⟨hf, hf'⟩ (hone c c' hlt hc')
    · rintro rfl
      exact hf
  · rintro ⟨c, hc, hone⟩
    have h1 : 0 < (List.range n).countP f := by
      rw [hpos]
      exact ⟨c, List.mem_range.mpr hc, (hone c hc).mpr rfl⟩
    have h2 : (List.range n).countP f ≤ 1 := by
      rw [range_le_one_iff]
      rintro r r' hlt hn ⟨hr, hr'⟩
      have e1 := (hone r (by omega)).mp hr
      have e2 := (hone r' hn).mp hr'
      omega
    omega

/-- One square in each row, or none. -/
theorem line_le_one_iff (line : Nat → Option Nat) :
    ((List.range n).filterMap line).countP x ≤ 1 ↔ ∀ r r', r < r' → r' < n → ∀ u v,
      line r = some u → line r' = some v → ¬ (x u = true ∧ x v = true) := by
  rw [List.countP_filterMap, range_le_one_iff]
  constructor
  · intro h r r' hlt hn u v hu hv
    have hr := h r r' hlt hn
    simpa [hu, hv] using hr
  · rintro h r r' hlt hn ⟨hr, hr'⟩
    cases hu : line r with
    | none => simp [hu] at hr
    | some u =>
      cases hv : line r' with
      | none => simp [hv] at hr'
      | some v => exact h r r' hlt hn u v hu hv ⟨by simpa [hu] using hr, by simpa [hv] using hr'⟩

theorem rowVars_iff (r : Nat) : (rowVars n r).countP x = 1 ↔
    ∃ c, c < n ∧ ∀ c', c' < n → (x (varIndex n r c') = true ↔ c' = c) := by
  unfold rowVars
  rw [List.countP_map, range_eq_one_iff]
  exact Iff.rfl

theorem colVars_iff (c : Nat) : (colVars n c).countP x ≤ 1 ↔
    ∀ r r', r < r' → r' < n → ¬ (x (varIndex n r c) = true ∧ x (varIndex n r' c) = true) := by
  unfold colVars
  rw [List.countP_map, range_le_one_iff]
  exact Iff.rfl

theorem diagVars_iff (diag : Int) : (diagVars n diag).countP x ≤ 1 ↔
    ∀ r r' c c', r < r' → r' < n → c < n → c' < n → (c : Int) = r - diag → (c' : Int) = r' - diag →
      ¬ (x (varIndex n r c) = true ∧ x (varIndex n r' c') = true) := by
  unfold diagVars
  rw [line_le_one_iff]
  constructor
  · intro h r r' c c' hlt hn hc hc' he he'
    apply h r r' hlt hn
    · rw [← he, if_pos (by omega), Int.toNat_natCast]
    · rw [← he', if_pos (by omega), Int.toNat_natCast]
  · intro h r r' hlt hn u v hu hv
    rw [Option.ite_none_right_eq_some] at hu hv
    obtain ⟨hc, hu⟩ := hu
    obtain ⟨hc', hv⟩ := hv
    rw [← Option.some.inj hu, ← Option.some.inj hv]
    exact h r r' _ _ hlt hn (by omega) (by omega) (by omega) (by omega)

theorem antiDiagVars_iff (sum : Nat) : (antiDiagVars n sum).countP x ≤ 1 ↔
    ∀ r r' c c', r < r' → r' < n → c < n → c' < n → r + c = sum → r' + c' = sum →
      ¬ (x (varIndex n r c) = true ∧ x (varIndex n r' c') = true) := by
  unfold antiDiagVars
  rw [line_le_one_iff]
  constructor
  · rintro h r r' c c' hlt hn hc hc' rfl he'
    apply h r r' hlt hn
    · rw [if_pos (by omega), Nat.add_sub_cancel_left, if_pos hc]
    · rw [if_pos (by omega), ← he', Nat.add_sub_cancel_left, if_pos hc']
  · intro h r r' hlt hn u v hu hv
    rw [Option.ite_none_right_eq_some, Option.ite_none_right_eq_some] at hu hv
    obtain ⟨hr, hc, hu⟩ := hu
    obtain ⟨hr', hc', hv⟩ := hv
    rw [← Option.some.inj hu, ← Option.some.inj hv]
    exact h r r' _ _ hlt hn hc hc' (by omega) (by omega)

/-- The lines of the board together say that no two queens attack each other. -/
theorem solves_iff (hn : 0 < n) : Solves n x ↔
    (∀ r, r < n → (rowVars n r).countP x = 1) ∧ (∀ c, c < n → (colVars n c).countP x ≤ 1) ∧
    (∀ k, k < 2 * n - 1 → (diagVars n (-((n : Int) - 1) + k)).countP x ≤ 1) ∧
    ∀ sum, sum < 2 * n - 1 → (antiDiagVars n sum).countP x ≤ 1 := by
  constructor
  · rintro ⟨q, hq, hx⟩
    refine ⟨?_, ?_, ?_, ?_⟩
    · intro r hr
      rw [rowVars_iff]
      exact ⟨q r, hq.inside r hr, fun c hc => hx r c hr hc⟩
    · intro c hc
      rw [colVars_iff]
      rintro r r' hlt hr' ⟨h1, h2⟩
      have e1 := (hx r c (by omega) hc).mp h1
      have e2 := (hx r' c hr' hc).mp h2
      exact hq.column r r' hlt hr' (e1.symm.trans e2)
    · intro k hk
      rw [diagVars_iff]
      rintro r r' c c' hlt hr' hc hc' he he' ⟨h1, h2⟩
      have e1 := (hx r c (by omega) hc).mp h1
      have e2 := (hx r' c' hr' hc').mp h2
      apply hq.diagonal r r' hlt hr'
      omega
    · intro sum hsum
      rw [antiDiagVars_iff]
      rintro r r' c c' hlt hr' hc hc' he he' ⟨h1, h2⟩
      have e1 := (hx r c (by omega) hc).mp h1
      have e2 := (hx r' c' hr' hc').mp h2
      apply hq.antiDiagonal r r' hlt hr'
      omega
  · rintro ⟨hrow, hcol, hdiag, hanti⟩
    have hone : ∀ r, ∃ c, r < n → c < n ∧ ∀ c', c' < n → (x (varIndex n r c') = true ↔ c' = c) := by
      intro r
      by_cases hr : r < n
      · obtain ⟨c, hc⟩ := (rowVars_iff r).mp (hrow r hr)
        exact ⟨c, fun _ => hc⟩
      · exact ⟨0, fun h => absurd h hr⟩
    choose q hq using hone
    have hset : ∀ r, r < n → q r < n ∧ x (varIndex n r (q r)) = true := by
      intro r hr
      obtain ⟨hin, hx⟩ := hq r hr
      exact ⟨hin, (hx _ hin).mpr rfl⟩
    refine ⟨q, ⟨?_, ?_, ?_, ?_⟩, ?_⟩
    · intro r hr
      exact (hset r hr).1
    · intro r r' hlt hr' he
      obtain ⟨hin, hx⟩ := hset r (by omega)
      obtain ⟨hin', hx'⟩ := hset r' hr'
      rw [← he] at hx'
      exact (colVars_iff (q r)).mp (hcol _ hin) r r' hlt hr' ⟨hx, hx'⟩
    · intro r r' hlt hr' he
      obtain ⟨hin, hx⟩ := hset r (by omega)
      obtain ⟨hin', hx'⟩ := hset r' hr'
      -- the diagonal of the two
      have hk := hdiag (r + (n - 1) - q r) (by omega)
      exact (diagVars_iff _).mp hk r r' (q r) (q r') hlt hr' hin hin' (by omega) (by omega) ⟨hx, hx'⟩
    · intro r r' hlt hr' he
      obtain ⟨hin, hx⟩ := hset r (by omega)
      obtain ⟨hin', hx'⟩ := hset r' hr'
      have hk := hanti (r + q r) (by omega)
      exact (antiDiagVars_iff _).mp hk r r' (q r) (q r') hlt hr' hin hin' rfl (by omega) ⟨hx, hx'⟩
    · intro r c hr hc
      exact (hq r hr).2 c hc

end

/-! ## The programs -/

section
variable {m t : Nat} {s₀ s : Session} {rs : List Part} {p q : Part} {R : BddRef → Session → Prop}

theorem wp_andInplace (h : Holds m s₀ (p :: q :: rs) s) (h₀ : Modest s₀)
    (hl : rs.length + 8 < 2 ^ 62) : wp (logic m t) (andInplace p.ref q.ref)
      (fun r => Holds m s₀ (⟨r, fun x => p.meaning x ∧ q.meaning x⟩ :: rs)) s := by
  unfold andInplace
  apply wp_seq (wp_and h h₀ (by simp only [List.length_cons]; omega) (.head _) (.tail _ (.head _)))
  intro tmp s₁ h₁
  apply wp_seq (wp_release (h₁.perm (.swap ..)) h₀ (by simp only [List.length_cons]; omega))
  intro _ s₂ h₂
  apply wp_seq (wp_release (h₂.perm (.swap ..)) h₀ (by simp only [List.length_cons]; omega))
  intro _ s₃ h₃
  exact h₃

theorem wp_getVar {α : Type} {i : Nat} {k : Bdd → Prog calls α} {R : α → Session → Prop}
    (hfur : Furnished s₀.world m) (h : Holds m s₀ rs s) (hi : i < (s₀.world.consts m).numVars)
    (hk : ∀ v, Holds m s₀ (⟨⟨v, false⟩, fun x => x i = true⟩ :: rs) s → wp (logic m t) (k v) R s) :
    wp (logic m t) (getVar (s₀.world.consts m) i >>= k) R s := by
  obtain ⟨v, hv, hst⟩ := hfur.var i hi
  apply wp_index hv
  apply hk
  apply h.borrow (Or.inr (Or.inr (Or.inl (List.mem_of_getElem? hv))))
  exact ⟨_, hst, fun x => Iff.rfl⟩

theorem wp_getNvar {α : Type} {i : Nat} {k : Bdd → Prog calls α} {R : α → Session → Prop}
    (hfur : Furnished s₀.world m) (h : Holds m s₀ rs s) (hi : i < (s₀.world.consts m).numVars)
    (hk : ∀ v, Holds m s₀ (⟨⟨v, false⟩, fun x => x i = false⟩ :: rs) s → wp (logic m t) (k v) R s) :
    wp (logic m t) (getNvar (s₀.world.consts m) i >>= k) R s := by
  obtain ⟨v, hv, hst⟩ := hfur.nvar i hi
  apply wp_index hv
  apply hk
  apply h.borrow (Or.inr (Or.inr (Or.inr (List.mem_of_getElem? hv))))
  refine ⟨_, hst, ?_⟩
  intro x
  simp

/-- The constant that everything starts with. -/
theorem holds_true {P : (Nat → Bool) → Prop} (hfur : Furnished s₀.world m) (h : Holds m s₀ rs s)
    (hP : ∀ x, P x) : Holds m s₀ (⟨⟨(s₀.world.consts m).trueId, false⟩, P⟩ :: rs) s := by
  apply h.borrow (Or.inl rfl)
  refine ⟨_, hfur.top, ?_⟩
  intro x
  simp [hP x]

theorem wp_orVars (h₀ : Modest s₀) (hfur : Furnished s₀.world m) {vars : List Nat}
    (hvars : ∀ v ∈ vars, v < (s₀.world.consts m).numVars) (hne : vars ≠ [])
    (h : Holds m s₀ rs s) (hl : rs.length + 8 < 2 ^ 62) :
    wp (logic m t) (orVars (s₀.world.consts m) vars)
      (fun r => Holds m s₀ (⟨r, fun x => ∃ v ∈ vars, x v = true⟩ :: rs)) s := by
  obtain ⟨var, rest, rfl⟩ := List.exists_cons_of_ne_nil hne
  unfold orVars
  apply wp_index (b := var) rfl
  apply wp_getVar hfur h (hvars var (by simp))
  intro first h₁
  refine wp_forEach (I := fun done acc =>
    Holds m s₀ (⟨acc, fun x => ∃ v ∈ var :: done, x v = true⟩ :: rs)) ?_ rest [] _ s rfl ?_
  · intro done var' acc s₁ hv h₁
    apply wp_getVar hfur h₁ (hvars var' (List.mem_cons_of_mem _ hv))
    intro v h₂
    apply wp_seq (wp_or h₂ h₀ (by simp only [List.length_cons]; omega) (.tail _ (.head _)) (.head _))
    intro tmp s₂ h₃
    have h₄ := (h₃.perm (.swap ..)).drop rfl
    apply wp_seq (wp_release (h₄.perm (.swap ..)) h₀ (by simp only [List.length_cons]; omega))
    intro _ s₃ h₅
    apply h₅.imp
    intro x
    simp only [List.mem_cons, List.mem_append, List.not_mem_nil, or_false]
    constructor
    · rintro (⟨u, hu, hx⟩ | hx)
      · exact ⟨u, hu.imp_right Or.inl, hx⟩
      · exact ⟨var', Or.inr (Or.inr rfl), hx⟩
    · rintro ⟨u, hu | hu | rfl, hx⟩
      · exact Or.inl ⟨u, Or.inl hu, hx⟩
      · exact Or.inl ⟨u, Or.inr hu, hx⟩
      · exact Or.inr hx
  · apply h₁.imp
    intro x
    simp

theorem wp_atMostOne (h₀ : Modest s₀) (hfur : Furnished s₀.world m) {vars : List Nat}
    (hvars : ∀ v ∈ vars, v < (s₀.world.consts m).numVars) (h : Holds m s₀ rs s)
    (hl : rs.length + 10 < 2 ^ 62) :
    wp (logic m t) (atMostOne (s₀.world.consts m) vars)
      (fun r => Holds m s₀ (⟨r, fun x => vars.countP x ≤ 1⟩ :: rs)) s := by
  unfold atMostOne
  apply wp_ite
  · intro hlen
    apply holds_true hfur h
    intro x
    have := List.countP_le_length (p := x) (l := vars)
    omega
  · intro hlen
    -- the pairs before `(i, i + 1)` are done
    apply wp_mono (Q := fun acc s => Holds m s₀
      (⟨acc, fun x => Apart x vars (vars.length - 1) (vars.length - 1 + 1)⟩ :: rs) s)
    · intro acc s' h'
      apply h'.imp
      intro x
      rw [← apart_end, Nat.sub_add_cancel (by omega)]
    · refine wp_forRange (I := fun i acc => Holds m s₀ (⟨acc, fun x => Apart x vars i (i + 1)⟩ :: rs))
        (holds_true hfur h fun x => apart_start) ?_
      intro i acc s₁ hi h₁
      have hvi : vars[i]? = some vars[i] := List.getElem?_eq_getElem (by omega)
      apply wp_index hvi
      apply wp_getNvar hfur h₁ (hvars _ (List.getElem_mem _))
      intro ni h₂
      apply wp_mono (Q := fun acc s => i < vars.length ∧ Holds m s₀
        (⟨acc, fun x => Apart x vars i vars.length⟩ :: ⟨⟨ni, false⟩, fun x => x vars[i] = false⟩ :: rs) s)
      · rintro acc' s' ⟨-, h'⟩
        apply ((h'.perm (.swap ..)).drop rfl).imp
        intro x
        exact apart_next
      · refine wp_forFrom (I := fun j acc s => i < j ∧ Holds m s₀ (⟨acc, fun x => Apart x vars i j⟩ ::
          ⟨⟨ni, false⟩, fun x => x vars[i] = false⟩ :: rs) s) ?_ _ _ _ _ (by omega) ?_
        · rintro j acc' s₂ hj ⟨hij, h₃⟩
          have hvj : vars[j]? = some vars[j] := List.getElem?_eq_getElem hj
          apply wp_index hvj
          apply wp_getNvar hfur h₃ (hvars _ (List.getElem_mem _))
          intro nj h₄
          apply wp_seq (wp_or h₄ h₀ (by simp only [List.length_cons]; omega)
            (.tail _ (.tail _ (.head _))) (.head _))
          intro clause s₃ h₅
          have h₆ := (h₅.perm (.swap ..)).drop rfl
          apply wp_mono _ (wp_andInplace (h₆.perm (.swap ..)) h₀ (by simp only [List.length_cons]; omega))
          intro u s₄ h₇
          refine ⟨by omega, h₇.imp ?_⟩
          intro x
          exact (apart_succ hij hvi hvj).symm
        · exact ⟨by omega, h₂.perm (.swap ..)⟩

/-- **`exactly_one`.** -/
theorem wp_exactlyOne (h₀ : Modest s₀) (hfur : Furnished s₀.world m) {vars : List Nat}
    (hvars : ∀ v ∈ vars, v < (s₀.world.consts m).numVars) (hne : vars ≠ [])
    (h : Holds m s₀ rs s) (hl : rs.length + 12 < 2 ^ 62) :
    wp (logic m t) (exactlyOne (s₀.world.consts m) vars)
      (fun r => Holds m s₀ (⟨r, fun x => vars.countP x = 1⟩ :: rs)) s := by
  unfold exactlyOne
  apply wp_seq (wp_orVars h₀ hfur hvars hne h (by omega))
  intro atLeast s₁ h₁
  apply wp_seq (wp_atMostOne h₀ hfur hvars h₁ (by simp only [List.length_cons]; omega))
  intro atMost s₂ h₂
  apply wp_seq (wp_and h₂ h₀ (by simp only [List.length_cons]; omega) (.tail _ (.head _)) (.head _))
  intro both s₃ h₃
  have hfirst : ∀ {a b c : Part}, (a :: b :: c :: rs).Perm (c :: a :: b :: rs) := by
    intro a b c
    exact (List.Perm.swap c b rs).cons a |>.trans (.swap c a (b :: rs))
  apply wp_seq (wp_release (h₃.perm hfirst) h₀ (by simp only [List.length_cons]; omega))
  intro _ s₄ h₄
  apply wp_seq (wp_release (h₄.perm (.swap ..)) h₀ (by simp only [List.length_cons]; omega))
  intro _ s₅ h₅
  apply h₅.imp
  intro x
  have hpos : 0 < vars.countP x ↔ ∃ v ∈ vars, x v = true := List.countP_pos_iff
  show (∃ v ∈ vars, x v = true) ∧ vars.countP x ≤ 1 ↔ vars.countP x = 1
  rw [← hpos]
  omega

/-- One more constraint. -/
theorem wp_conjoin {c : Prog calls BddRef} {acc : BddRef} {P Q : (Nat → Bool) → Prop} (h₀ : Modest s₀)
    (hl : rs.length + 12 < 2 ^ 62)
    (hc : ∀ rs s, rs.length + 12 < 2 ^ 62 → Holds m s₀ rs s →
      wp (logic m t) c (fun r => Holds m s₀ (⟨r, Q⟩ :: rs)) s)
    (h : Holds m s₀ (⟨acc, P⟩ :: rs) s) (hrs : rs.length + 13 < 2 ^ 62) :
    wp (logic m t) (c >>= andInplace acc) (fun r => Holds m s₀ (⟨r, fun x => P x ∧ Q x⟩ :: rs)) s := by
  apply wp_seq (hc (⟨acc, P⟩ :: rs) s (by simp only [List.length_cons]; omega) h)
  intro r s₁ h₁
  exact wp_andInplace (h₁.perm (.swap ..)) h₀ (by omega)

/-- A loop that adds one constraint each time round. -/
theorem wp_conjunction {n : Nat} {body : Nat → BddRef → Prog calls BddRef} {acc : BddRef}
    {P : (Nat → Bool) → Prop} {Q : Nat → (Nat → Bool) → Prop}
    (hbody : ∀ k acc P s, k < n → Holds m s₀ (⟨acc, P⟩ :: rs) s →
      wp (logic m t) (body k acc) (fun r => Holds m s₀ (⟨r, fun x => P x ∧ Q k x⟩ :: rs)) s)
    (h : Holds m s₀ (⟨acc, P⟩ :: rs) s) :
    wp (logic m t) (Prog.forRange n body acc)
      (fun r => Holds m s₀ (⟨r, fun x => P x ∧ ∀ k, k < n → Q k x⟩ :: rs)) s := by
  refine wp_forRange (I := fun k acc =>
    Holds m s₀ (⟨acc, fun x => P x ∧ ∀ j, j < k → Q j x⟩ :: rs)) ?_ ?_
  · apply h.imp
    intro x
    simp
  · intro k acc s hk h
    apply wp_mono _ (hbody k acc _ s hk h)
    intro r s' h'
    apply h'.imp
    intro x
    constructor
    · rintro ⟨⟨hP, hall⟩, hQ⟩
      refine ⟨hP, ?_⟩
      intro j hj
      rcases Nat.lt_succ_iff_lt_or_eq.mp hj with hj | rfl
      · exact hall j hj
      · exact hQ
    · rintro ⟨hP, hall⟩
      exact ⟨⟨hP, fun j hj => hall j (Nat.lt_succ_of_lt hj)⟩, hall k (Nat.lt_succ_self k)⟩

/-- A diagonal of one square, or of none, asks for nothing. -/
theorem wp_diagonal {vars : List Nat} {acc : BddRef} {P : (Nat → Bool) → Prop} (h₀ : Modest s₀)
    (hfur : Furnished s₀.world m) (hl : rs.length + 13 < 2 ^ 62)
    (hvars : ∀ v ∈ vars, v < (s₀.world.consts m).numVars) (h : Holds m s₀ (⟨acc, P⟩ :: rs) s) :
    wp (logic m t) (if 2 ≤ vars.length then do
      let constraint ← atMostOne (s₀.world.consts m) vars
      andInplace acc constraint
    else return acc) (fun r => Holds m s₀ (⟨r, fun x => P x ∧ vars.countP x ≤ 1⟩ :: rs)) s := by
  apply wp_ite
  · intro hlen
    apply wp_conjoin h₀ (by omega) _ h hl
    intro rs s hl h
    exact wp_atMostOne h₀ hfur hvars h (by omega)
  · intro hlen
    apply h.imp
    intro x
    have := List.countP_le_length (p := x) (l := vars)
    constructor
    · intro hP
      exact ⟨hP, by omega⟩
    · intro hP
      exact hP.1

end

section
variable {n v : Nat}

theorem varIndex_lt {r c : Nat} (hr : r < n) (hc : c < n) : varIndex n r c < n * n := by
  unfold varIndex
  have h : (r + 1) * n ≤ n * n := Nat.mul_le_mul_right n hr
  rw [Nat.succ_mul] at h
  omega

theorem rowVars_lt {r : Nat} (hr : r < n) (hv : v ∈ rowVars n r) : v < n * n := by
  obtain ⟨c, hc, rfl⟩ := List.mem_map.mp hv
  exact varIndex_lt hr (List.mem_range.mp hc)

theorem colVars_lt {c : Nat} (hc : c < n) (hv : v ∈ colVars n c) : v < n * n := by
  obtain ⟨r, hr, rfl⟩ := List.mem_map.mp hv
  exact varIndex_lt (List.mem_range.mp hr) hc

theorem diagVars_lt {diag : Int} (hv : v ∈ diagVars n diag) : v < n * n := by
  obtain ⟨r, hr, hv⟩ := List.mem_filterMap.mp hv
  rw [Option.ite_none_right_eq_some] at hv
  obtain ⟨hc, hv⟩ := hv
  rw [← Option.some.inj hv]
  exact varIndex_lt (List.mem_range.mp hr) (by omega)

theorem antiDiagVars_lt {sum : Nat} (hv : v ∈ antiDiagVars n sum) : v < n * n := by
  obtain ⟨r, hr, hv⟩ := List.mem_filterMap.mp hv
  rw [Option.ite_none_right_eq_some, Option.ite_none_right_eq_some] at hv
  obtain ⟨-, hc, hv⟩ := hv
  rw [← Option.some.inj hv]
  exact varIndex_lt (List.mem_range.mp hr) hc

/-- The sums of the antidiagonals. -/
theorem sums_eq (hn : 0 < n) (hlt : n < 2 ^ 60) : wrapSub (2 * n) 2 + 1 = 2 * n - 1 := by
  rw [wrapSub_eq (by omega), Nat.mod_eq_of_lt (by omega)]
  omega

end

section
variable {m t n : Nat} {s₀ : Session}

/-- **`build_n_queens`**, by a client that holds nothing else. -/
theorem wp_buildNQueens (h : Accounted s₀ m) (h₀ : Modest s₀) (hfur : Furnished s₀.world m)
    (hn : 0 < n) (hvars : n * n ≤ (s₀.world.consts m).numVars) :
    wp (logic m t) (buildNQueens (s₀.world.consts m) n)
      (fun r => Holds m s₀ [⟨r, Solves n⟩]) s₀ := by
  have hlt : n < 2 ^ 60 := by
    have hmax := (h.resting.inv.table m h.made).nodes.numVars
    have hle : n ≤ n * n := Nat.le_mul_of_pos_left n hn
    omega
  have hl : ([] : List Part).length + 13 < 2 ^ 62 := by simp
  have hrow : ∀ {r v : Nat}, r < n → v ∈ rowVars n r → v < (s₀.world.consts m).numVars :=
    fun hr hv => Nat.lt_of_lt_of_le (rowVars_lt hr hv) hvars
  unfold buildNQueens
  -- the rows
  refine wp_seq (wp_conjunction (Q := fun r x => (rowVars n r).countP x = 1) ?_
    (holds_true (P := fun _ => True) hfur (Holds.start h) fun _ => trivial)) ?_
  · intro r acc P s hr h₁
    apply wp_conjoin h₀ (by omega) _ h₁ hl
    intro rs s hrs h₂
    apply wp_exactlyOne h₀ hfur (fun v hv => hrow hr hv) _ h₂ hrs
    unfold rowVars
    simp
    omega
  intro acc s₁ h₁
  -- the columns
  refine wp_seq (wp_conjunction (Q := fun c x => (colVars n c).countP x ≤ 1) ?_ h₁) ?_
  · intro c acc P s hc h₂
    apply wp_conjoin h₀ (by omega) _ h₂ hl
    intro rs s hrs h₃
    exact wp_atMostOne h₀ hfur (fun v hv => Nat.lt_of_lt_of_le (colVars_lt hc hv) hvars) h₃ (by omega)
  intro acc s₂ h₂
  -- the diagonals
  have hdiag : (2 * ((n : Int) - 1) + 1).toNat = 2 * n - 1 := by omega
  refine wp_seq (wp_conjunction
    (Q := fun k x => (diagVars n (-((n : Int) - 1) + k)).countP x ≤ 1) ?_ h₂) ?_
  · intro k acc P s hk h₃
    exact wp_diagonal h₀ hfur hl (fun v hv => Nat.lt_of_lt_of_le (diagVars_lt hv) hvars) h₃
  intro acc s₃ h₃
  -- the antidiagonals
  refine wp_mono ?_ (wp_conjunction (Q := fun k x => (antiDiagVars n k).countP x ≤ 1) ?_ h₃)
  · intro acc s₄ h₄
    rw [hdiag, sums_eq hn hlt] at h₄
    apply h₄.imp
    intro x
    rw [solves_iff hn]
    constructor
    · rintro ⟨⟨⟨⟨-, h1⟩, h2⟩, h3⟩, h4⟩
      exact ⟨h1, h2, h3, h4⟩
    · rintro ⟨h1, h2, h3, h4⟩
      exact ⟨⟨⟨⟨trivial, h1⟩, h2⟩, h3⟩, h4⟩
  · intro k acc P s hk h₄
    exact wp_diagonal h₀ hfur hl (fun v hv => Nat.lt_of_lt_of_le (antiDiagVars_lt hv) hvars) h₄

/-- One iteration of the benchmark, on the manager it has made. -/
def iteration (g : Consts) (n : Nat) : Prog calls Bdd := do
  let root ← buildNQueens g n
  release root
  return root.id

end

/-! ## Where a run of calls has led to -/

theorem started_few {varNum : Nat} (a : Bdd) : (started varNum).own a < 2 ^ 63 := by
  show (0 : Int) < 2 ^ 63
  decide

theorem started_queens : 4 * 4 ≤ ((started 16).world.consts 0).numVars := by
  rw [started_numVars (by decide)]

section
variable {t m k : Nat} {σ : Nat → Session}

theorem History.modest (hf : ∀ i, i ≤ k → (σ i).Fair m) (hfew : ∀ a, (σ k).own a < 2 ^ 63) :
    Modest (σ k) :=
  ⟨(hf k (Nat.le_refl k)).given, hfew⟩

/-- **At most one, and exactly one** of some variables, in every state of a run of calls. -/
theorem History.constraints_build (h : History t m k σ) (hf : ∀ i, i ≤ k → (σ i).Fair m)
    (hfew : ∀ a, (σ k).own a < 2 ^ 63) {vars : List Nat}
    (hvars : ∀ v ∈ vars, v < ((σ k).world.consts m).numVars) :
    Builds m t (atMostOne ((σ k).world.consts m) vars) (σ k) (fun x => vars.countP x ≤ 1) ∧
    (vars ≠ [] → Builds m t (exactlyOne ((σ k).world.consts m) vars) (σ k)
      fun x => vars.countP x = 1) ∧
    (vars = [] → run (exec m t) (exactlyOne ((σ k).world.consts m) vars) (σ k) = .error .panic) := by
  have h₀ := History.modest hf hfew
  have hfur := History.furnished h hf k (Nat.le_refl k)
  have hstart := Holds.start (h.accounted hf k (Nat.le_refl k))
  refine ⟨?_, ?_, ?_⟩
  · exact builds_of_wp (wp_atMostOne h₀ hfur hvars hstart (by decide))
  · intro hne
    exact builds_of_wp (wp_exactlyOne h₀ hfur hvars hne hstart (by decide))
  · rintro rfl
    rfl

theorem constraints_build_started : Builds 0 0 (exactlyOne ((started 16).world.consts 0) [3, 5, 3])
    (started 16) fun x => [3, 5, 3].countP x = 1 := by
  obtain ⟨h, hf⟩ := Begins.history (show Begins 0 0 (started 16) from started_begins (by decide))
  have hvars : ∀ v ∈ [3, 5, 3], v < ((started 16).world.consts 0).numVars := by
    rw [started_numVars (by decide)]
    decide
  exact (History.constraints_build h (fun _ _ => hf) started_few hvars).2.1 (by decide)

/-- **The benchmark's formula**, in every state of a run of calls. -/
theorem History.buildNQueens_solves (h : History t m k σ) (hf : ∀ i, i ≤ k → (σ i).Fair m)
    (hfew : ∀ a, (σ k).own a < 2 ^ 63) {n : Nat} (hn : 0 < n)
    (hvars : n * n ≤ ((σ k).world.consts m).numVars) :
    Builds m t (buildNQueens ((σ k).world.consts m) n) (σ k) (Solves n) :=
  builds_of_wp (wp_buildNQueens (h.accounted hf k (Nat.le_refl k)) (History.modest hf hfew)
    (History.furnished h hf k (Nat.le_refl k)) hn hvars)

theorem buildNQueens_solves_four :
    Builds 0 0 (buildNQueens ((started 16).world.consts 0) 4) (started 16) (Solves 4) := by
  obtain ⟨h, hf⟩ := Begins.history (show Begins 0 0 (started 16) from started_begins (by decide))
  exact History.buildNQueens_solves h (fun _ _ => hf) started_few (by decide) started_queens

/-- **An iteration of the benchmark leaves nothing behind**: the collector finds the nodes that
the manager came with. -/
theorem iteration_leaves {s : Session} (h : Begins t m s) {n : Nat} (hn : 0 < n)
    (hvars : n * n ≤ (s.world.consts m).numVars) :
    (∃ root s', run (exec m t) (iteration (s.world.consts m) n) s = .ok (root, s') ∧
      ∃ N, ∀ k, N ≤ k → ∃ w', run (Manager.exec m t) (gc k) s'.world =
        .ok (2 + 2 * (s.world.consts m).numVars, w') ∧
        ∀ a, (w'.store m).Live a ↔ (s.world.consts m).Kept a) ∨
    ∃ s', run (exec m t) (iteration (s.world.consts m) n) s = .error .panic ∧ ¬ s'.world.Roomy m ∧
      Relation.ReflTransGen (Counts t m) s s' := by
  obtain ⟨hist, hf⟩ := Begins.history h
  have hmod : Modest s := by
    obtain ⟨-, -, -, -, -, -, -, -, -, hown⟩ := h
    constructor
    · intro a
      rw [hown]
    · intro a
      rw [hown]
      decide
  have hzero : ∀ a, s.own a = 0 := by
    obtain ⟨-, -, -, -, -, -, -, -, -, hown⟩ := h
    exact hown
  have hwp : wp (logic m t) (iteration (s.world.consts m) n) (fun _ => Holds m s []) s := by
    apply wp_seq (wp_buildNQueens h.accounted hmod (furnished_begins h) hn hvars)
    intro root s₁ h₁
    apply wp_seq (wp_release h₁ hmod (by decide))
    intro _ s₂ h₂
    exact h₂
  rcases run_client hwp with ⟨root, s', hrun, hr, hc⟩ | hstop
  · left
    -- what the client called is a run of calls, which ends with nothing taken
    obtain ⟨n', σ', -, hist', hf', rfl⟩ := History.calls hist (fun _ _ => hf) hc
    have hown : ∀ a, (σ' n').own a = 0 := by
      intro a
      rw [hr.own, hzero, owed_nil]
      rfl
    have hgc := (History.gc_leaves hist' hf').2 hown
    rw [hr.consts] at hgc
    exact ⟨root, _, hrun, hgc⟩
  · exact Or.inr hstop

theorem iteration_leaves_four :
    (∃ root s', run (exec 0 0) (iteration ((started 16).world.consts 0) 4) (started 16) = .ok (root, s') ∧
      ∃ N, ∀ k, N ≤ k → ∃ w', run (Manager.exec 0 0) (gc k) s'.world =
        .ok (2 + 2 * ((started 16).world.consts 0).numVars, w') ∧
        ∀ a, (w'.store 0).Live a ↔ ((started 16).world.consts 0).Kept a) ∨
    ∃ s', run (exec 0 0) (iteration ((started 16).world.consts 0) 4) (started 16) = .error .panic ∧
      ¬ s'.world.Roomy 0 ∧ Relation.ReflTransGen (Counts 0 0) (started 16) s' :=
  iteration_leaves (started_begins (by decide)) (by decide) started_queens

end

end Client

end Tobdd
