import Tobdd.Lib.Mix
import Tobdd.Words

/-!
# What the hash functions do

`splitmix64` is a bijection, and `splitmix64_2` and `splitmix64_3` are bijections in each of their
arguments.  So each bucket of a table, and each slot of a cache, has its share of the values that an
argument can take.

    hashes_spread: that, for all three
-/

namespace Tobdd

/-- A hash of one word: no two words have the same one, and each bucket has its share. -/
structure Spread (f : UInt64 → UInt64) : Prop where
  bijective : Function.Bijective f
  share : ∀ e i, i < shl64 e → {x | maskIdx (f x) e = i}.ncard = 2 ^ (64 - e % 64)

section
variable {f : UInt64 → UInt64}

theorem toBitVec_bijective : Function.Bijective UInt64.toBitVec := by
  constructor
  · intro x y h
    exact UInt64.eq_of_toBitVec_eq h
  · intro b
    exact ⟨⟨b⟩, rfl⟩

theorem finite_uint64 : Finite UInt64 := by
  apply Finite.of_injective fun x : UInt64 => x.toBitVec.toFin
  intro x y h
  apply toBitVec_bijective.1
  exact BitVec.eq_of_toFin_eq h

theorem Spread.of_injective (hf : Function.Injective f) : Spread f := by
  have hfin : Finite UInt64 := finite_uint64
  have hbij : Function.Bijective f := Finite.injective_iff_bijective.mp hf
  refine ⟨hbij, ?_⟩
  intro e i hi
  have hset : {x | maskIdx (f x) e = i} =
      Set.preimage (UInt64.toBitVec ∘ f) {y : BitVec 64 | y.toNat % 2 ^ (e % 64) = i} := by
    ext x
    show maskIdx (f x) e = i ↔ (f x).toNat % 2 ^ (e % 64) = i
    rw [mask_toNat]
    exact Iff.rfl
  have hle : e % 64 ≤ 64 := by omega
  unfold Set.ncard
  rw [hset, Set.encard_preimage_of_bijective (toBitVec_bijective.comp hbij)]
  exact Mix.ncard_residue hle hi

/-- A function that does to the bits what an injective one does. -/
theorem injective_of_toBitVec {F : BitVec 64 → BitVec 64} (hF : Function.Injective F)
    (hf : ∀ x, (f x).toBitVec = F x.toBitVec) : Function.Injective f := by
  intro x y hxy
  apply UInt64.eq_of_toBitVec_eq
  apply hF
  rw [← hf, ← hf, hxy]

theorem xorShift_injective {k : UInt64} (hk : 0 < k.toNat % 64) :
    Function.Injective fun x : UInt64 => x ^^^ (x >>> k) :=
  injective_of_toBitVec (Mix.xorShift_injective hk) fun _ => rfl

theorem mul_injective {c d : UInt64} (h : c * d = 1) : Function.Injective fun x : UInt64 => x * c :=
  injective_of_toBitVec (Mix.mul_injective (congrArg UInt64.toBitVec h)) fun _ => rfl

theorem rotateLeft_injective {n : UInt64} (h0 : 0 < n.toNat) (h : n.toNat < 64) :
    Function.Injective fun x => rotateLeft x n := by
  apply injective_of_toBitVec (Mix.rotate_injective h)
  intro x
  have hn : n.toNat % 64 = n.toNat := Nat.mod_eq_of_lt h
  have hsub : (64 - n).toNat % 64 = 64 - n.toNat := by
    rw [UInt64.toNat_sub_of_le _ _ (by rw [UInt64.le_iff_toNat_le]; exact Nat.le_of_lt h)]
    show (64 - n.toNat) % 64 = 64 - n.toNat
    omega
  show x.toBitVec <<< (n.toNat % 64) ||| x.toBitVec >>> ((64 - n).toNat % 64) = _
  rw [hn, hsub]

theorem splitmix64_injective : Function.Injective splitmix64 := by
  intro x y h
  unfold splitmix64 at h
  have h1 := xorShift_injective (k := 31) (by decide) h
  have h2 := mul_injective (c := 0x94d049bb133111eb) (d := 0x319642b2d24d8ec3) (by decide) h1
  have h3 := xorShift_injective (k := 27) (by decide) h2
  have h4 := mul_injective (c := 0xbf58476d1ce4e5b9) (d := 0x96de1b173f119089) (by decide) h3
  have h5 := xorShift_injective (k := 30) (by decide) h4
  exact (UInt64.add_left_inj _).mp h5

/-- **The hash functions** are bijections in each of their arguments, and spread them evenly. -/
theorem hashes_spread : Spread splitmix64 ∧
    (∀ x y, Spread (fun x => splitmix64_2 x y) ∧ Spread (fun y => splitmix64_2 x y)) ∧
    ∀ a b c, Spread (fun a => splitmix64_3 a b c) ∧ Spread (fun b => splitmix64_3 a b c) ∧
      Spread (fun c => splitmix64_3 a b c) := by
  have hrot1 : Function.Injective fun x => rotateLeft x 1 := rotateLeft_injective (by decide) (by decide)
  have hrot7 : Function.Injective fun x => rotateLeft x 7 := rotateLeft_injective (by decide) (by decide)
  refine ⟨.of_injective splitmix64_injective, ?_, ?_⟩
  · intro x y
    constructor
    · apply Spread.of_injective
      intro x x' h
      exact splitmix64_injective ((UInt64.xor_left_inj _).mp h)
    · apply Spread.of_injective
      intro y y' h
      exact splitmix64_injective (hrot1 ((UInt64.xor_right_inj _).mp h))
  · intro a b c
    refine ⟨?_, ?_, ?_⟩
    · apply Spread.of_injective
      intro a a' h
      have h1 := (UInt64.xor_left_inj _).mp (splitmix64_injective h)
      exact splitmix64_injective ((UInt64.xor_left_inj _).mp h1)
    · apply Spread.of_injective
      intro b b' h
      have h1 := (UInt64.xor_left_inj _).mp (splitmix64_injective h)
      exact splitmix64_injective (hrot1 ((UInt64.xor_right_inj _).mp h1))
    · apply Spread.of_injective
      intro c c' h
      have h1 := (UInt64.xor_right_inj _).mp (splitmix64_injective h)
      exact splitmix64_injective (hrot7 h1)

end

end Tobdd
