import Mathlib.Data.UInt
import Mathlib.Tactic.Common

/-!
# Machine words

The hash functions of `hash.rs`; `1 << e` at the width Rust gives each occurrence, with
the shift amount masked to the width (overflow checks are off in every profile); boxed
slices, whose index check panics; `to_be_bytes` and back.

    rangeI32_eq_shl64: the unannotated range `0..(1 << e)` counts in `i32`, right up to `2^30`
    mask_toNat: `hash & ((1 << e) - 1)` is the hash mod `2 ^ (e % 64)`
-/

namespace Tobdd

/-! ## hash.rs -/

def splitmix64 (x : UInt64) : UInt64 :=
  let x := x + 0x9e3779b97f4a7c15
  let x := (x ^^^ (x >>> 30)) * 0xbf58476d1ce4e5b9
  let x := (x ^^^ (x >>> 27)) * 0x94d049bb133111eb
  x ^^^ (x >>> 31)

def rotateLeft (x : UInt64) (n : UInt64) : UInt64 := (x <<< n) ||| (x >>> (64 - n))

def splitmix64_2 (x y : UInt64) : UInt64 :=
  let hx := splitmix64 x
  let hy := splitmix64 y
  hx ^^^ rotateLeft hy 1

def splitmix64_3 (a b c : UInt64) : UInt64 :=
  let ha := splitmix64 a
  let hb := splitmix64 b
  let hc := splitmix64 c
  let h := ha ^^^ rotateLeft hb 1 ^^^ rotateLeft hc 7
  splitmix64 h

/-! ## Shifts -/

/-- `1 << e` in `usize` and `u64`. -/
def shl64 (e : Nat) : Nat := 2 ^ (e % 64)

/-- How often the range `0..(1 << e)` goes round where nothing fixes its type: it counts
in `i32`, and `1i32 << 31` is negative. -/
def rangeI32 (e : Nat) : Nat := if e % 32 = 31 then 0 else 2 ^ (e % 32)

/-- `usize::isolate_highest_one`. -/
def isolateHighestOne (n : UInt64) : UInt64 := if n = 0 then 0 else 1 <<< n.log2

/-- `usize::trailing_zeros`. -/
def trailingZeros (n : UInt64) : Nat := ((List.range 64).find? n.toNat.testBit).getD 64

/-- The exponent of the array that `with_capacity` makes. -/
def capacityExp (cap : UInt64) : Nat := trailingZeros (isolateHighestOne cap) + 1

/-- `hash & ((1 << e) - 1)` as an index. -/
def maskIdx (hash : UInt64) (e : Nat) : Nat := (hash &&& UInt64.ofNat (shl64 e - 1)).toNat

theorem shl64_pos (e : Nat) : 0 < shl64 e := Nat.two_pow_pos _

theorem shl64_lt (e : Nat) : shl64 e < 2 ^ 64 := by
  unfold shl64
  exact Nat.pow_lt_pow_right (by omega) (Nat.mod_lt _ (by omega))

theorem mask_toNat (hash : UInt64) (e : Nat) : maskIdx hash e = hash.toNat % shl64 e := by
  have h := shl64_lt e
  unfold maskIdx
  rw [UInt64.toNat_and, UInt64.toNat_ofNat', Nat.mod_eq_of_lt (by omega)]
  exact Nat.and_two_pow_sub_one_eq_mod _ _

theorem maskIdx_lt (hash : UInt64) (e : Nat) : maskIdx hash e < shl64 e := by
  rw [mask_toNat]
  exact Nat.mod_lt _ (shl64_pos e)

/-- Up to `2 ^ 30` the two widths agree. -/
theorem rangeI32_eq_shl64 {e : Nat} (h : e % 64 < 31) : rangeI32 e = shl64 e := by
  have h32 : e % 32 = e % 64 := by omega
  unfold rangeI32 shl64
  rw [if_neg (by omega), h32]

/-- The array is never longer than the mask assumes. -/
theorem rangeI32_lt (e : Nat) : rangeI32 e < 2 ^ 31 := by
  unfold rangeI32
  split
  · decide
  · exact Nat.pow_lt_pow_right (by decide) (by omega)

theorem rangeI32_le (e : Nat) : rangeI32 e ≤ shl64 e := by
  unfold rangeI32
  split
  · exact Nat.zero_le _
  · exact Nat.pow_le_pow_right (by omega) (by omega)

/-! ## Bytes -/

/-- `k` bytes of a number, the highest first. -/
def beBytes : Nat → Nat → List UInt8
  | 0, _ => []
  | k + 1, n => beBytes k (n / 256) ++ [UInt8.ofNat n]

/-- The number that some bytes are, the highest first. -/
def ofBe (l : List UInt8) : Nat := l.foldl (fun n b => n * 256 + b.toNat) 0

/-- `usize::to_be_bytes`. -/
def toBeBytes (n : UInt64) : List UInt8 := beBytes 8 n.toNat

/-- `usize::from_be_bytes`. -/
def fromBeBytes (l : List UInt8) : UInt64 := UInt64.ofNat (ofBe l)

theorem beBytes_length (k n : Nat) : (beBytes k n).length = k := by
  induction k generalizing n with
  | zero => rfl
  | succ k ih =>
    unfold beBytes
    rw [List.length_append, ih]
    rfl

theorem ofBe_beBytes (k n : Nat) : ofBe (beBytes k n) = n % 256 ^ k := by
  induction k generalizing n with
  | zero =>
    rw [Nat.pow_zero, Nat.mod_one]
    rfl
  | succ k ih =>
    have hb : (UInt8.ofNat n).toNat = n % 256 := UInt8.toNat_ofNat'
    unfold beBytes
    unfold ofBe at ih ⊢
    rw [List.foldl_append, ih]
    show n / 256 % 256 ^ k * 256 + (UInt8.ofNat n).toNat = _
    rw [hb, Nat.pow_succ', Nat.mod_mul]
    omega

@[simp] theorem toBeBytes_length (n : UInt64) : (toBeBytes n).length = 8 := beBytes_length 8 _

@[simp] theorem fromBeBytes_toBeBytes (n : UInt64) : fromBeBytes (toBeBytes n) = n := by
  unfold fromBeBytes toBeBytes
  have hlt : n.toNat < 256 ^ 8 := n.toNat_lt
  rw [ofBe_beBytes, Nat.mod_eq_of_lt hlt]
  exact UInt64.ofNat_toNat

/-! ## Boxed slices -/

/-- A boxed slice: its length and its contents. -/
structure Slice (α : Type) where
  len : Nat
  get : Nat → α

namespace Slice

variable {α : Type}

/-- `(0..n).map(|_| a).collect()`. -/
def replicate (n : Nat) (a : α) : Slice α := ⟨n, fun _ => a⟩

def set (s : Slice α) (i : Nat) (a : α) : Slice α := ⟨s.len, Function.update s.get i a⟩

@[simp] theorem replicate_len (n : Nat) (a : α) : (replicate n a).len = n := rfl

@[simp] theorem replicate_get (n : Nat) (a : α) (i : Nat) : (replicate n a).get i = a := rfl

@[simp] theorem set_len (s : Slice α) (i : Nat) (a : α) : (s.set i a).len = s.len := rfl

@[simp] theorem set_get_self (s : Slice α) (i : Nat) (a : α) : (s.set i a).get i = a := by
  simp [set]

theorem set_get_of_ne (s : Slice α) {i j : Nat} (a : α) (h : j ≠ i) :
    (s.set i a).get j = s.get j := by
  simp [set, h]

end Slice

end Tobdd
