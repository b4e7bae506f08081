import Tobdd.Doubling
import Tobdd.Methods

/-!
# Arrays and their masks

`with_capacity` and `grow` count the elements of a new array in `i32`; the masks, the loops and
`bucket_size` are in 64 bits.

    array_sizes: the two agree if and only if the exponent, as the shift sees it, is less than 31
    array_too_short: ... so not for a capacity of `2 ^ 30`, nor of `2 ^ 31`
-/

namespace Tobdd

open Resume

/-- An array of `len` elements is as long as the exponent `e` has it. -/
structure Masks (len e : Nat) : Prop where
  /-- `bucket_size` -/
  size : len = shl64 e
  index : ∀ hash, maskIdx hash e < len
  /-- `0..(1 << size_exp)` goes over the whole array, and not further -/
  sweep : ∀ i, i < shl64 e ↔ i < len

theorem masks_iff {len e : Nat} : Masks len e ↔ len = shl64 e := by
  constructor
  · exact fun h => h.size
  · rintro rfl
    exact ⟨rfl, fun hash => maskIdx_lt hash e, fun i => Iff.rfl⟩

/-- The widths differ from `2 ^ 31` on. -/
theorem rangeI32_eq_iff {e : Nat} : rangeI32 e = shl64 e ↔ e % 64 < 31 := by
  constructor
  · intro h
    by_contra hge
    have hlt := rangeI32_lt e
    have hle : 2 ^ 31 ≤ shl64 e := Nat.pow_le_pow_right (by decide) (Nat.le_of_not_lt hge)
    omega
  · exact rangeI32_eq_shl64

/-! ## Tables -/

namespace Store

/-- The array and the exponent are as long and as large as before. -/
def SameSize (s s' : Store) : Prop :=
  s'.set.buckets.len = s.set.buckets.len ∧ s'.set.sizeExp = s.set.sizeExp

/-- The tables that `with_capacity` of `cap` and `k` calls of `grow` lead to, with any accesses of
any threads in between. -/
inductive Uses (cap : UInt64) : Nat → Store → Prop
  | new (heap : Heap) (freeId : Nat → Bdd) : Uses cap 0 ⟨heap, .withCapacity cap, freeId⟩
  | access {k t : Nat} {s s' : Store} {o : Access} {r : mem.Res o} : Uses cap k s → ¬ o.Resizes →
      Store.exec t o s = .ok (r, s') → Uses cap k s'
  | grow {k t n : Nat} {s s' : Store} : Uses cap k s →
      run (Store.exec t) (LockFreeSet.grow n) s = .ok ((), s') → Uses cap (k + 1) s'

section
variable {α : Type} {t : Nat} {s s' : Store} {o : Access} {r : mem.Res o}

theorem SameSize.trans {s'' : Store} (h : SameSize s s') (h' : SameSize s' s'') : SameSize s s'' :=
  ⟨h'.1.trans h.1, h'.2.trans h.2⟩

theorem sameSize_put (s : Store) (b : Bdd) (p : Place) : SameSize s (s.put b p) := by
  cases p with
  | head i => exact ⟨rfl, rfl⟩
  | next a => exact ⟨rfl, rfl⟩

theorem sameSize_exec (ho : ¬ o.Resizes) (h : Store.exec t o s = .ok (r, s')) : SameSize s s' := by
  cases o with
  | load p =>
    obtain ⟨-, -, rfl⟩ := load_ok h
    exact ⟨rfl, rfl⟩
  | store p b =>
    obtain rfl := store_ok h
    exact sameSize_put s b p
  | cas p curr new =>
    obtain ⟨-, ⟨-, -, rfl⟩ | ⟨-, -, rfl⟩⟩ := cas_ok h
    · exact sameSize_put s new p
    · exact ⟨rfl, rfl⟩
  | key _ | hash _ | level _ | low _ | high _ | refCnt _ =>
    obtain ⟨-, rfl⟩ := look_ok h
    exact ⟨rfl, rfl⟩
  | fetchAdd _ | fetchSub _ | setLevel _ _ | setLow _ _ | setHigh _ _ | rehash _ | mark _
  | unmark _ =>
    obtain rfl := edit_ok h
    exact ⟨rfl, rfl⟩
  | free a =>
    obtain rfl := free_ok h
    exact ⟨rfl, rfl⟩
  | setSizeExp _ | setBuckets _ => exact absurd trivial ho
  | panic | spinLoop => cases h
  | alloc _ | addEntry | setEntry _ | entryNum | numMarks | setMarks _ | sizeExp | freeId
  | setFreeId _ =>
    obtain ⟨-, rfl⟩ := Prod.mk.inj (Except.ok.inj h)
    exact ⟨rfl, rfl⟩

/-- What a thread does alone, whether it comes to an end or not. -/
def free (t : Nat) : Logic mem Store :=
  .alone (Store.exec t) (fun _ _ => True) fun _ _ => True

theorem wp_resizeless {k : mem.Res o → Prog mem α} {Q : α → Store → Prop} (ho : ¬ o.Resizes)
    (h : ∀ r s', SameSize s s' → wp (free t) (k r) Q s') :
    wp (free t) (acc o >>= k) Q s := by
  rintro s₁ rfl
  refine ⟨trivial, ?_⟩
  have hex : (free t).exec o s = Store.exec t o s := rfl
  rw [hex]
  cases he : Store.exec t o s with
  | error e => trivial
  | ok x => exact fun _ => ⟨trivial, h x.1 x.2 (sameSize_exec ho he)⟩

theorem wp_stop {p : Prog mem α} {Q : α → Store → Prop} (hp : p = spinLoop ∨ p = panic) :
    wp (free t) p Q s := by
  rcases hp with rfl | rfl
  · rintro s₁ rfl
    exact ⟨trivial, trivial⟩
  · rintro s₁ rfl
    exact ⟨trivial, trivial⟩

/-! ### grow -/

theorem wp_loadNew_size (nb : Slice Bdd) (p : Place) :
    wp (free t) (LockFreeSet.loadNew nb p) (fun _ s' => SameSize s s') s := by
  cases p with
  | head i => exact ⟨rfl, rfl⟩
  | next a => exact wp_resizeless (k := Prog.ret) id fun _ _ h => h

theorem wp_storeNew_size (nb : Slice Bdd) (b : Bdd) (p : Place) :
    wp (free t) (LockFreeSet.storeNew nb b p) (fun nb' s' => SameSize s s' ∧ nb'.len = nb.len) s := by
  cases p with
  | head i => exact ⟨⟨rfl, rfl⟩, rfl⟩
  | next a => exact wp_resizeless id fun _ _ h => ⟨h, rfl⟩

theorem wp_scanNew_size (nb : Slice Bdd) (key : Key) : ∀ n p scan s,
    wp (free t) (LockFreeSet.scanNew nb key n p scan) (fun _ s' => SameSize s s') s := by
  intro n
  induction n with
  | zero => exact fun _ _ _ => wp_stop (Or.inl rfl)
  | succ n ih =>
    intro p scan s
    refine wp_ite _ (fun _ => ⟨rfl, rfl⟩) fun _ => ?_
    refine wp_resizeless id fun key' s₁ h₁ => wp_ite _ (fun _ => h₁) fun _ => ?_
    refine wp_seq (wp_loadNew_size nb _) fun next s₂ h₂ => ?_
    exact wp_mono (fun _ s₃ h₃ => (h₁.trans h₂).trans h₃) (ih _ next s₂)

/-- The array under construction keeps its length. -/
theorem wp_moveChain_size (e : Nat) : ∀ n curr nb s,
    wp (free t) (LockFreeSet.moveChain e n curr nb)
      (fun nb' s' => SameSize s s' ∧ nb'.len = nb.len) s := by
  intro n
  induction n with
  | zero => exact fun _ _ _ => wp_stop (Or.inl rfl)
  | succ n ih =>
    intro curr nb s
    refine wp_ite _ (fun _ => ⟨⟨rfl, rfl⟩, rfl⟩) fun _ => ?_
    refine wp_resizeless id fun next s₁ h₁ => wp_resizeless id fun hash s₂ h₂ => ?_
    refine wp_ite _ (fun _ => wp_stop (Or.inr rfl)) fun _ => ?_
    refine wp_seq (wp_loadNew_size nb _) fun scan s₃ h₃ => ?_
    refine wp_resizeless id fun key s₄ h₄ => ?_
    refine wp_seq (wp_scanNew_size nb key n _ scan s₄) fun x s₅ h₅ => ?_
    refine wp_resizeless id fun _ s₆ h₆ => ?_
    refine wp_seq (wp_storeNew_size nb curr x.1) ?_
    rintro nb' s₇ ⟨h₇, hlen⟩
    have h := (((((h₁.trans h₂).trans h₃).trans h₄).trans h₅).trans h₆).trans h₇
    exact wp_mono (fun nb'' s₈ h₈ => ⟨h.trans h₈.1, h₈.2.trans hlen⟩) (ih next nb' s₇)

/-- **`grow`** makes an array of the length that `i32` counts. -/
theorem run_grow_size {n : Nat} (h : run (Store.exec t) (LockFreeSet.grow n) s = .ok ((), s')) :
    s'.set.buckets.len = rangeI32 (s.set.sizeExp + 1) ∧ s'.set.sizeExp = s.set.sizeExp + 1 := by
  have hwp : wp (free t) (LockFreeSet.grow n) (fun _ s' =>
      s'.set.buckets.len = rangeI32 (s.set.sizeExp + 1) ∧ s'.set.sizeExp = s.set.sizeExp + 1) s := by
    unfold LockFreeSet.grow
    have hexp : Store.exec t .sizeExp s = .ok (s.set.sizeExp, s) := rfl
    refine wp_answer hexp trivial ?_
    refine wp_answer (r := s.set.sizeExp) (w := s) hexp trivial ?_
    show wp (free t) (Prog.forRange _ _ _ >>= _) _ s
    refine wp_seq (wp_forRange (I := fun _ (nb : Slice Bdd) s' => SameSize s s' ∧
      nb.len = rangeI32 (s.set.sizeExp + 1)) ⟨⟨rfl, rfl⟩, rfl⟩ ?_) ?_
    · rintro i nb s₁ - ⟨h₁, hlen⟩
      refine wp_resizeless id fun curr s₂ h₂ => ?_
      exact wp_mono (fun nb' s₃ h₃ => ⟨(h₁.trans h₂).trans h₃.1, h₃.2.trans hlen⟩)
        (wp_moveChain_size _ n curr nb s₂)
    · rintro nb s₁ ⟨-, hlen⟩
      have hset : Store.exec t (.setBuckets nb) s₁ = .ok ((), { s₁ with set.buckets := nb }) := rfl
      exact wp_answer hset trivial (wp_answer rfl trivial ⟨hlen, rfl⟩)
  rcases wp_run (fun _ => trivial) (fun _ _ _ _ _ => trivial) hwp with
    ⟨_, s₁, hrun, hq, -⟩ | ⟨e, _, hrun, -⟩
  · obtain ⟨-, rfl⟩ := Prod.mk.inj (Except.ok.inj (hrun.symm.trans h))
    exact hq
  · cases hrun.symm.trans h

/-! ### The other methods -/

/-- A whole method that does not grow. -/
theorem Uses.run {cap : UInt64} {k : Nat} {x : α} : ∀ {p : Prog mem α} {s : Store}, s.Uses cap k →
    (p.Only fun o => ¬ Access.Resizes o) → Resume.run (Store.exec t) p s = .ok (x, s') →
    s'.Uses cap k := by
  intro p
  induction p with
  | ret a =>
    intro s h _ hrun
    obtain ⟨-, rfl⟩ := Prod.mk.inj (Except.ok.inj hrun)
    exact h
  | step o q ih =>
    intro s h ho hrun
    cases he : Store.exec t o s with
    | error e =>
      rw [run_step_error he] at hrun
      cases hrun
    | ok y =>
      have he : Store.exec t o s = .ok (y.1, y.2) := he
      rw [run_step_ok he] at hrun
      exact ih y.1 (h.access ho.1 he) (ho.2 y.1) hrun

/-- Inserting, marking, sweeping and unmarking do not count as growing. -/
theorem Uses.methods {cap : UInt64} {k : Nat} (h : s.Uses cap k) (t n : Nat) :
    (∀ p x s', Resume.run (Store.exec t) (LockFreeSet.getOrInsert p n) s = .ok (x, s') →
      s'.Uses cap k) ∧
    (∀ x s', Resume.run (Store.exec t) (LockFreeSet.markNodes n) s = .ok (x, s') → s'.Uses cap k) ∧
    (∀ x s', Resume.run (Store.exec t) (LockFreeSet.gcUnmarked n) s = .ok (x, s') → s'.Uses cap k) ∧
    ∀ x s', Resume.run (Store.exec t) (LockFreeSet.unmarkNodes n) s = .ok (x, s') → s'.Uses cap k := by
  have hcalm : ∀ o : Access, o.Calm → ¬ o.Resizes := fun o ho => ho.not_resizes
  refine ⟨fun p x s' hrun => ?_, fun x s' hrun => ?_, fun x s' hrun => ?_, fun x s' hrun => ?_⟩
  · exact h.run ((LockFreeSet.calm_getOrInsert p n).mono hcalm) hrun
  · refine h.run ?_ hrun
    rw [LockFreeSet.markNodes_eq]
    exact ((LockFreeSet.calm_countMarks n).mono hcalm).bind fun c => ⟨id, fun _ => trivial⟩
  · exact h.run ((LockFreeSet.calm_gcUnmarked n).mono hcalm) hrun
  · exact h.run ((LockFreeSet.calm_unmarkNodes n).mono hcalm) hrun

theorem Uses.sizes {cap : UInt64} {k : Nat} (h : Uses cap k s) :
    s.set.sizeExp = capacityExp cap + k ∧ s.set.buckets.len = rangeI32 (capacityExp cap + k) := by
  induction h with
  | new heap freeId => exact ⟨rfl, rfl⟩
  | access _ ho he ih =>
    obtain ⟨hlen, hexp⟩ := sameSize_exec ho he
    exact ⟨hexp.trans ih.1, hlen.trans ih.2⟩
  | grow _ hrun ih =>
    obtain ⟨hlen, hexp⟩ := run_grow_size hrun
    rw [ih.1] at hlen hexp
    exact ⟨hexp, hlen⟩

end

end Store

/-! ## Memo tables -/

/-- The memo tables that `with_capacity` of `cap` and `k` calls of `grow` lead to. -/
inductive LockFreeCache.Uses {K V : Type} [Inhabited K] [Inhabited V] (cap : UInt64) :
    Nat → LockFreeCache K V → Prop
  | new : Uses cap 0 (.withCapacity cap)
  | insert {k : Nat} {c c' : LockFreeCache K V} {hash : UInt64} {key : K} {value : V} {b : Bool} :
      Uses cap k c → c.insert hash key value = .ok (b, c') → Uses cap k c'
  | invalidateAll {k : Nat} {c : LockFreeCache K V} : Uses cap k c → Uses cap k c.invalidateAll
  | grow {k : Nat} {c : LockFreeCache K V} : Uses cap k c → Uses cap (k + 1) c.grow

theorem LockFreeCache.Uses.sizes {K V : Type} [Inhabited K] [Inhabited V] {cap : UInt64} {k : Nat}
    {c : LockFreeCache K V} (h : c.Uses cap k) :
    c.sizeExp = capacityExp cap + k ∧ c.entries.len = rangeI32 (capacityExp cap + k) := by
  induction h with
  | new => exact ⟨rfl, rfl⟩
  | insert _ he ih =>
    simp only [LockFreeCache.insert] at he
    split at he
    · obtain ⟨-, rfl⟩ := Prod.mk.inj (Except.ok.inj he)
      exact ih
    · cases he
  | invalidateAll _ ih => exact ih
  | grow _ ih =>
    constructor
    · exact congrArg (· + 1) ih.1
    · exact congrArg (fun e => rangeI32 (e + 1)) ih.1

/-! ## The exponent -/

theorem trailingZeros_shift : ∀ j, j < 64 → trailingZeros (1 <<< UInt64.ofNat j) = j := by
  decide +kernel

/-- `with_capacity` takes the next power of two above the highest bit, and 2 for 0. -/
theorem capacityExp_eq (cap : UInt64) :
    capacityExp cap = if cap = 0 then 65 else cap.toNat.log2 + 1 := by
  unfold capacityExp isolateHighestOne
  by_cases h : cap = 0
  · rw [if_pos h, if_pos h]
    decide
  · have hne : cap.toNat ≠ 0 := fun h0 => h (UInt64.toNat_inj.mp h0)
    have hlt : cap.toNat.log2 < 64 := (Nat.log2_lt hne).mpr cap.toNat_lt
    have hnat : cap.log2.toNat = cap.toNat.log2 := rfl
    have hlog : cap.log2 = UInt64.ofNat cap.toNat.log2 := by
      rw [← hnat, UInt64.ofNat_toNat]
    rw [if_neg h, if_neg h, hlog, trailingZeros_shift _ hlt]

/-- The exponent of an array that was made for `cap` and has grown `k` times. -/
def exponent (cap : UInt64) (k : Nat) : Nat := (if cap = 0 then 1 else cap.toNat.log2 + 1) + k

theorem exponent_mod (cap : UInt64) (k : Nat) :
    (capacityExp cap + k) % 64 = exponent cap k % 64 := by
  rw [capacityExp_eq]
  unfold exponent
  split
  · omega
  · rfl

/-! ## Both -/

/-- **The arrays are as long as their masks assume** if and only if their exponent is less than
31, up to multiples of 64, which the shift does not see. -/
theorem array_sizes (cap : UInt64) (k : Nat) :
    (∀ s : Store, s.Uses cap k →
      (Masks s.set.buckets.len s.set.sizeExp ↔ exponent cap k % 64 < 31)) ∧
    ∀ (K V : Type) [Inhabited K] [Inhabited V] (c : LockFreeCache K V), c.Uses cap k →
      (Masks c.entries.len c.sizeExp ↔ exponent cap k % 64 < 31) := by
  constructor
  · intro s h
    rw [h.sizes.1, h.sizes.2, masks_iff, rangeI32_eq_iff, exponent_mod]
  · intro K V _ _ c h
    rw [h.sizes.1, h.sizes.2, masks_iff, rangeI32_eq_iff, exponent_mod]

/-- A table for 8 nodes, grown once. -/
theorem array_sizes_eight : ∃ s : Store, s.Uses 8 1 ∧ Masks s.set.buckets.len s.set.sizeExp := by
  obtain ⟨N, hN⟩ := Store.growsWell_of_lt (Store.empty_quiet 8 (by decide)) 0 (by decide)
  obtain ⟨s, hrun, -⟩ := hN N (Nat.le_refl N)
  have h : s.Uses 8 1 := (Store.Uses.new _ _).grow hrun
  exact ⟨s, h, ((array_sizes 8 1).1 s h).mpr (by decide)⟩

/-- For `2 ^ 30` there is no element at all, and for `2 ^ 31` there is one. -/
theorem array_too_short :
    (∃ s : Store, s.Uses (2 ^ 30) 0 ∧ s.set.buckets.len = 0 ∧ shl64 s.set.sizeExp = 2 ^ 31 ∧
      ∀ hash, ¬ maskIdx hash s.set.sizeExp < s.set.buckets.len) ∧
    ∃ c : LockFreeCache Bdd Bdd, c.Uses (2 ^ 31) 0 ∧ c.entries.len = 1 ∧
      shl64 c.sizeExp = 2 ^ 32 ∧ ¬ maskIdx 1 c.sizeExp < c.entries.len := by
  refine ⟨⟨Store.empty (2 ^ 30), .new _ _, by decide, by decide, fun hash h => ?_⟩,
    .withCapacity (2 ^ 31), .new, by decide, by decide, by decide⟩
  have hlen : (Store.empty (2 ^ 30)).set.buckets.len = 0 := by decide
  rw [hlen] at h
  exact absurd h (Nat.not_lt_zero _)

end Tobdd
