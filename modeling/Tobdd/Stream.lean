import Tobdd.Invariant
import Tobdd.Io

/-!
# Streams of records

What the bytes after the header say: `body`, the whole records in them; `Meaning`, which ids
are known after some records and for which functions; `Readable`, that each record names
known ids, and a level that is in order unless its children are the same.

    body_records: the records that were written are the ones that are read
-/

namespace Tobdd.Manager

open Diagram

/-! ## Records -/

structure Record where
  id : UInt64
  level : UInt64
  low : UInt64
  high : UInt64
  deriving DecidableEq, Repr

def Record.bytes (r : Record) : List UInt8 :=
  toBeBytes r.id ++ toBeBytes r.level ++ toBeBytes r.low ++ toBeBytes r.high

/-- What the loop of `deserialize` takes a window for. -/
def recordOf (window : List UInt8) : Record :=
  ⟨word window 0, word window 1, word window 2, word window 3⟩

@[simp] theorem Record.bytes_length (r : Record) : r.bytes.length = 32 := by
  unfold Record.bytes
  simp only [List.length_append, toBeBytes_length]

theorem word_zero (n : UInt64) (l : List UInt8) : word (toBeBytes n ++ l) 0 = n := by
  unfold word
  rw [Nat.mul_zero, List.drop_zero, List.take_left' (toBeBytes_length n), fromBeBytes_toBeBytes]

theorem word_succ (n : UInt64) (l : List UInt8) (i : Nat) :
    word (toBeBytes n ++ l) (i + 1) = word l i := by
  unfold word
  have h : 8 * (i + 1) = (toBeBytes n).length + 8 * i := by
    rw [toBeBytes_length]
    omega
  rw [h, List.drop_append, List.drop_eq_nil_of_le (Nat.le_add_right _ _), List.nil_append,
    Nat.add_sub_cancel_left]

theorem recordOf_bytes (r : Record) : recordOf r.bytes = r := by
  unfold recordOf Record.bytes
  rw [List.append_assoc, List.append_assoc, ← List.append_nil (toBeBytes r.high)]
  simp only [word_succ, word_zero]

/-- The first `k` records. -/
def parse : Nat → List UInt8 → List Record
  | 0, _ => []
  | k + 1, bytes => recordOf (bytes.take 32) :: parse k (bytes.drop 32)

/-- The whole records after the header. -/
def body (bytes : List UInt8) : List Record := parse (bytes.length / 32) bytes

theorem body_short {bytes : List UInt8} (h : bytes.length < 32) : body bytes = [] := by
  unfold body
  rw [Nat.div_eq_of_lt h]
  rfl

theorem body_cons {bytes : List UInt8} (h : 32 ≤ bytes.length) :
    body bytes = recordOf (bytes.take 32) :: body (bytes.drop 32) := by
  unfold body
  have hlen : bytes.length / 32 = (bytes.drop 32).length / 32 + 1 := by
    rw [List.length_drop]
    omega
  rw [hlen]
  rfl

/-- **The records that were written are the ones that are read.** -/
theorem body_records (l : List Record) (rest : List UInt8) (h : rest.length < 32) :
    body (l.flatMap Record.bytes ++ rest) = l := by
  induction l with
  | nil => exact body_short h
  | cons r l ih =>
    have happ : (r :: l).flatMap Record.bytes ++ rest =
        r.bytes ++ (l.flatMap Record.bytes ++ rest) := by
      rw [List.flatMap_cons, List.append_assoc]
    have hlen : 32 ≤ ((r :: l).flatMap Record.bytes ++ rest).length := by
      rw [happ, List.length_append, Record.bytes_length]
      omega
    rw [body_cons hlen, happ, List.take_left' r.bytes_length, List.drop_left' r.bytes_length, ih,
      recordOf_bytes]

theorem body_length (bytes : List UInt8) : (body bytes).length = bytes.length / 32 := by
  have key : ∀ k bytes, (parse k bytes).length = k := by
    intro k
    induction k with
    | zero => exact fun _ => rfl
    | succ k ih => exact fun bytes => congrArg (· + 1) (ih _)
  exact key _ _

/-! ## What they mean -/

/-- The ids that are known, each with its function. -/
abbrev Meaning := UInt64 → Option BoolFn

/-- The two ids of the header; the second wins where they are the same. -/
def Meaning.start (falseId trueId : UInt64) : Meaning :=
  Function.update (Function.update (fun _ => none) falseId (some fun _ => false)) trueId
    (some fun _ => true)

/-- The function a record describes. -/
def Record.value (F : Meaning) (r : Record) : Option BoolFn :=
  match F r.low, F r.high with
  | some f, some f' => some (choose r.level.toNat f f')
  | _, _ => none

/-- What is known after the record. -/
def Meaning.learn (F : Meaning) (r : Record) : Meaning := Function.update F r.id (r.value F)

/-- The children are known; they are the same, or the level is one of the manager and above
theirs.  With debug assertions the level is not too large in any case. -/
def Record.Sound (debug : Bool) (numVars : Nat) (F : Meaning) (r : Record) : Prop :=
  (debug = true → r.level.toNat ≤ numVars) ∧
  ∃ f f', F r.low = some f ∧ F r.high = some f' ∧ (f = f' ∨ r.level.toNat < numVars ∧
    From (r.level.toNat + 1) f ∧ From (r.level.toNat + 1) f')

theorem Record.value_eq {F : Meaning} {r : Record} {f f' : BoolFn} (h : F r.low = some f)
    (h' : F r.high = some f') : r.value F = some (choose r.level.toNat f f') := by
  unfold Record.value
  rw [h, h']

def Readable (debug : Bool) (numVars : Nat) : Meaning → List Record → Prop
  | _, [] => True
  | F, r :: l => r.Sound debug numVars F ∧ Readable debug numVars (F.learn r) l

/-- What is known after all records. -/
def Meaning.after (F : Meaning) (l : List Record) : Meaning := l.foldl Meaning.learn F

/-- The functions that the records describe, in turn. -/
def values : Meaning → List Record → List (Option BoolFn)
  | _, [] => []
  | F, r :: l => r.value F :: values (F.learn r) l

theorem readable_append {debug : Bool} {numVars : Nat} {F : Meaning} {l l' : List Record} :
    Readable debug numVars F (l ++ l') ↔
      Readable debug numVars F l ∧ Readable debug numVars (F.after l) l' := by
  induction l generalizing F with
  | nil => exact (and_iff_right trivial).symm
  | cons r l ih =>
    show r.Sound debug numVars F ∧ Readable debug numVars (F.learn r) (l ++ l') ↔ _
    rw [ih]
    exact and_assoc.symm

theorem Meaning.after_append (F : Meaning) (l l' : List Record) :
    F.after (l ++ l') = (F.after l).after l' := List.foldl_append ..

theorem values_append (F : Meaning) (l l' : List Record) :
    values F (l ++ l') = values F l ++ values (F.after l) l' := by
  induction l generalizing F with
  | nil => rfl
  | cons r l ih => exact congrArg (r.value F :: ·) (ih _)

/-- The last record is the one its id stands for. -/
theorem Meaning.after_last {F : Meaning} {l : List Record} {r : Record} (h : l.getLast? = some r) :
    ∃ l', l = l' ++ [r] ∧ F.after l r.id = r.value (F.after l') := by
  obtain ⟨l', rfl⟩ := List.getLast?_eq_some_iff.mp h
  refine ⟨l', rfl, ?_⟩
  rw [after_append]
  exact Function.update_self ..

end Tobdd.Manager
