import Tobdd.Words
import Tobdd.Lib.Prog

/-!
# The memo tables of `cache.rs`

`LockFreeCache`: a boxed slice of slots, each a pair under its own lock word.  Here every
access is one indivisible step; `CacheThreads` takes the accesses apart.

`Sound P c`: every slot holds the default pair or a pair that satisfies `P`.  It is kept
by every access, whether or not a write gets through, and `get` then answers the default
value or a value `P` speaks of (`get_sound`).
-/

namespace Tobdd

open Resume

/-- `SpinRwLock<(K, V)>` of `spin/rw_r_pre.rs`: the lock word and the pair. -/
structure Slot (K V : Type) where
  state : Int
  key : K
  value : V

/-- `isize::MAX`. -/
def isizeMax : Int := 2 ^ 63 - 1

structure LockFreeCache (K V : Type) where
  entries : Slice (Slot K V)
  sizeExp : Nat

variable {K V : Type} [Inhabited K] [Inhabited V]

/-- `SpinRwLock::new(Default::default())`. -/
def Slot.new : Slot K V := ⟨0, default, default⟩

/-- `try_write_once`, when nobody else uses the lock meanwhile. -/
def Slot.tryWriteOnce (s : Slot K V) (key : K) (value : V) : Bool × Slot K V :=
  if s.state ≠ 0 then (false, s) else (true, { s with key := key, value := value })

namespace LockFreeCache

def withCapacity (cap : UInt64) : LockFreeCache K V :=
  let sizeExp := capacityExp cap
  ⟨Slice.replicate (rangeI32 sizeExp) Slot.new, sizeExp⟩

def slotIdx (c : LockFreeCache K V) (hash : UInt64) : Nat := maskIdx hash c.sizeExp

def get [DecidableEq K] (c : LockFreeCache K V) (hash : UInt64) (q : K) : Except Stop V :=
  let idx := c.slotIdx hash
  if idx < c.entries.len then
    let s := c.entries.get idx
    if s.state < 0 then .error .spin
    else if s.state = isizeMax then .error .panic
    else .ok (if s.key = q then s.value else default)
  else .error .panic

def insert (c : LockFreeCache K V) (hash : UInt64) (key : K) (value : V) :
    Except Stop (Bool × LockFreeCache K V) :=
  let idx := c.slotIdx hash
  if idx < c.entries.len then
    let r := (c.entries.get idx).tryWriteOnce key value
    .ok (r.1, { c with entries := c.entries.set idx r.2 })
  else .error .panic

def invalidateAll (c : LockFreeCache K V) : LockFreeCache K V :=
  { c with entries :=
      ⟨c.entries.len, fun i => ((c.entries.get i).tryWriteOnce default default).2⟩ }

def grow (c : LockFreeCache K V) : LockFreeCache K V :=
  let newSizeExp := c.sizeExp + 1
  ⟨Slice.replicate (rangeI32 newSizeExp) Slot.new, newSizeExp⟩

/-! ## What the slots hold -/

/-- No guard is held and no write is under way. -/
def Quiet (c : LockFreeCache K V) : Prop := ∀ i, (c.entries.get i).state = 0

def Sound (P : K → V → Prop) (c : LockFreeCache K V) : Prop :=
  ∀ i, ((c.entries.get i).key = default ∧ (c.entries.get i).value = default) ∨
    P (c.entries.get i).key (c.entries.get i).value

/-- The array is as long as the mask assumes. -/
def Sized (c : LockFreeCache K V) : Prop := c.entries.len = shl64 c.sizeExp

/-- Every slot holds the default pair. -/
def Empty (c : LockFreeCache K V) : Prop := ∀ i, c.entries.get i = Slot.new

theorem Empty.quiet {c : LockFreeCache K V} (h : c.Empty) : c.Quiet := fun i => by rw [h i]; rfl

theorem Empty.sound {c : LockFreeCache K V} (h : c.Empty) (P : K → V → Prop) : c.Sound P :=
  fun i => by rw [h i]; exact Or.inl ⟨rfl, rfl⟩

theorem Sound.mono {P P' : K → V → Prop} {c : LockFreeCache K V} (h : c.Sound P)
    (hP : ∀ k v, P k v → P' k v) : c.Sound P' :=
  fun i => (h i).imp_right (hP _ _)

theorem withCapacity_empty (cap : UInt64) : (withCapacity cap : LockFreeCache K V).Empty :=
  fun _ => rfl

theorem grow_empty (c : LockFreeCache K V) : c.grow.Empty := fun _ => rfl

theorem invalidateAll_empty {c : LockFreeCache K V} (h : c.Quiet) : c.invalidateAll.Empty := by
  intro i
  simp only [invalidateAll, Slot.tryWriteOnce, h i, ne_eq, not_true_eq_false, if_false]
  rfl

/-- A quiet cache answers, the default value or a value `P` speaks of; it panics only when
the array is shorter than the mask assumes. -/
theorem get_sound [DecidableEq K] {P : K → V → Prop} {c : LockFreeCache K V} (hq : c.Quiet)
    (hs : c.Sound P) (hash : UInt64) {q : K} (hne : q ≠ default) :
    (∃ v, c.get hash q = .ok v ∧ (v = default ∨ P q v)) ∨
      (c.get hash q = .error .panic ∧ ¬ c.Sized) := by
  unfold get
  by_cases hi : c.slotIdx hash < c.entries.len
  · left
    simp only [if_pos hi, hq (c.slotIdx hash), Int.lt_irrefl, if_false]
    rw [if_neg (by unfold isizeMax; omega)]
    refine ⟨_, rfl, ?_⟩
    split
    · next hk =>
      rcases hs (c.slotIdx hash) with ⟨h1, _⟩ | h
      · exact absurd (hk.symm.trans h1) hne
      · rw [hk] at h
        exact Or.inr h
    · exact Or.inl rfl
  · right
    rw [if_neg hi]
    exact ⟨rfl, fun h => hi (h ▸ maskIdx_lt hash c.sizeExp)⟩

omit [Inhabited K] [Inhabited V] in
theorem tryWriteOnce_state (s : Slot K V) (key : K) (value : V) :
    (s.tryWriteOnce key value).2.state = s.state := by
  unfold Slot.tryWriteOnce
  split <;> rfl

omit [Inhabited K] [Inhabited V] in
/-- An insert, dropped or not, changes one slot at most. -/
theorem insert_cases (c : LockFreeCache K V) (hash : UInt64) (key : K) (value : V) :
    (∃ b c', c.insert hash key value = .ok (b, c') ∧ c'.sizeExp = c.sizeExp ∧
      c'.entries.len = c.entries.len ∧
      (∀ i, (c'.entries.get i).state = (c.entries.get i).state) ∧
      ∀ i, c'.entries.get i = c.entries.get i ∨
        ((c'.entries.get i).key = key ∧ (c'.entries.get i).value = value)) ∨
      (c.insert hash key value = .error .panic ∧ ¬ c.Sized) := by
  unfold insert
  by_cases hi : c.slotIdx hash < c.entries.len
  · left
    rw [if_pos hi]
    refine ⟨_, _, rfl, rfl, rfl, fun i => ?_, fun i => ?_⟩
    · by_cases h : i = c.slotIdx hash
      · subst h
        simp only [Slice.set_get_self, tryWriteOnce_state]
      · simp only [Slice.set_get_of_ne _ _ h]
    · by_cases h : i = c.slotIdx hash
      · subst h
        simp only [Slice.set_get_self]
        unfold Slot.tryWriteOnce
        split
        · exact Or.inl rfl
        · exact Or.inr ⟨rfl, rfl⟩
      · left
        simp only [Slice.set_get_of_ne _ _ h]
  · right
    rw [if_neg hi]
    exact ⟨rfl, fun h => hi (h ▸ maskIdx_lt hash c.sizeExp)⟩

end LockFreeCache

end Tobdd
