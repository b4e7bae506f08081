import Mathlib.Data.Set.Card
import Mathlib.Tactic.Common

/-!
# Functions that mix the bits of a word

Each step that hash functions are made of (`x ^ (x >> k)`, a rotation, a product with a unit) can be
undone.  Of what is reached by a bijection, each residue class of a power of two has its share.

    xorShift_injective, rotate_injective, mul_injective
    ncard_residue: how many words fall into one of `2 ^ e` buckets
-/

namespace Mix

variable {w : Nat}

/-- `x ^ (x >> k)`: the bits are found again from the highest downwards. -/
theorem xorShift_injective {k : Nat} (hk : 0 < k) :
    Function.Injective fun x : BitVec w => x ^^^ (x >>> k) := by
  intro x y h
  have hbit : ∀ i, (x.getLsbD i ^^ x.getLsbD (k + i)) = (y.getLsbD i ^^ y.getLsbD (k + i)) := by
    intro i
    have hi := congrArg (fun z => BitVec.getLsbD z i) h
    simpa [BitVec.getLsbD_xor, BitVec.getLsbD_ushiftRight] using hi
  -- the bits from `w - d` on are the same
  have hhigh : ∀ d i, w ≤ i + d → x.getLsbD i = y.getLsbD i := by
    intro d
    induction d with
    | zero =>
      intro i hi
      rw [BitVec.getLsbD_of_ge x i (by omega), BitVec.getLsbD_of_ge y i (by omega)]
    | succ d ih =>
      intro i hi
      have hb := hbit i
      rw [ih (k + i) (by omega)] at hb
      exact Bool.xor_left_inj.mp hb
  apply BitVec.eq_of_getLsbD_eq
  intro i hi
  exact hhigh w i (by omega)

/-- A rotation: each bit is found again in its place. -/
theorem rotate_injective {r : Nat} (hr : r < w) :
    Function.Injective fun x : BitVec w => x <<< r ||| x >>> (w - r) := by
  intro x y h
  apply BitVec.eq_of_getLsbD_eq
  intro i hi
  have hat : ∀ j, (decide (j < w) && (!decide (j < r) && x.getLsbD (j - r)) || x.getLsbD (w - r + j)) =
      (decide (j < w) && (!decide (j < r) && y.getLsbD (j - r)) || y.getLsbD (w - r + j)) := by
    intro j
    have hj := congrArg (fun z => BitVec.getLsbD z j) h
    simpa [BitVec.getLsbD_or, BitVec.getLsbD_shiftLeft, BitVec.getLsbD_ushiftRight, Bool.and_assoc] using hj
  by_cases hlow : i + r < w
  · have hj := hat (i + r)
    rw [BitVec.getLsbD_of_ge x (w - r + (i + r)) (by omega),
      BitVec.getLsbD_of_ge y (w - r + (i + r)) (by omega), Nat.add_sub_cancel] at hj
    simpa [hlow] using hj
  · have hj := hat (i + r - w)
    have hback : w - r + (i + r - w) = i := by omega
    rw [hback] at hj
    have hlt : i + r - w < r := by omega
    simpa [hlt] using hj

/-- A product with a unit. -/
theorem mul_injective {c d : BitVec w} (h : c * d = 1#w) :
    Function.Injective fun x : BitVec w => x * c := by
  intro x y hxy
  have hx : x * c * d = y * c * d := congrArg (· * d) hxy
  rwa [BitVec.mul_assoc, BitVec.mul_assoc, h, BitVec.mul_one, BitVec.mul_one] at hx

/-- How many words there are in one of `2 ^ e` buckets. -/
theorem ncard_residue {e i : Nat} (he : e ≤ w) (hi : i < 2 ^ e) :
    {y : BitVec w | y.toNat % 2 ^ e = i}.ncard = 2 ^ (w - e) := by
  have hw : 2 ^ w = 2 ^ e * 2 ^ (w - e) := by
    rw [← Nat.pow_add, Nat.add_sub_cancel' he]
  have hlt : ∀ q, q < 2 ^ (w - e) → 2 ^ e * q + i < 2 ^ w := by
    intro q hq
    have hle : 2 ^ e * (q + 1) ≤ 2 ^ e * 2 ^ (w - e) := Nat.mul_le_mul_left _ hq
    rw [Nat.mul_succ, ← hw] at hle
    omega
  have hset : {y : BitVec w | y.toNat % 2 ^ e = i} =
      (fun q => BitVec.ofNat w (2 ^ e * q + i)) '' (Finset.range (2 ^ (w - e)) : Set Nat) := by
    ext y
    simp only [Set.mem_ofPred_eq, Set.mem_image, Finset.coe_range, Set.mem_Iio]
    constructor
    · intro hy
      have hdiv : 2 ^ e * (y.toNat / 2 ^ e) + i = y.toNat := by
        rw [← hy]
        exact Nat.div_add_mod ..
      refine ⟨y.toNat / 2 ^ e, ?_, ?_⟩
      · rw [Nat.div_lt_iff_lt_mul (Nat.two_pow_pos e), Nat.mul_comm, ← hw]
        exact y.isLt
      · rw [hdiv, BitVec.ofNat_toNat, BitVec.setWidth_eq]
    · rintro ⟨q, hq, rfl⟩
      rw [BitVec.toNat_ofNat, Nat.mod_eq_of_lt (hlt q hq), Nat.mul_add_mod, Nat.mod_eq_of_lt hi]
  rw [hset, Set.InjOn.ncard_image, Set.ncard_coe_finset, Finset.card_range]
  intro q hq q' hq' heq
  have hq : q < 2 ^ (w - e) := by simpa using hq
  have hq' : q' < 2 ^ (w - e) := by simpa using hq'
  have hnat := congrArg BitVec.toNat heq
  simp only [BitVec.toNat_ofNat] at hnat
  rw [Nat.mod_eq_of_lt (hlt q hq), Nat.mod_eq_of_lt (hlt q' hq')] at hnat
  exact Nat.eq_of_mul_eq_mul_left (Nat.two_pow_pos e) (by omega)

end Mix
