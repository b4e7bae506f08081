import Mathlib.Data.List.Nodup
import Mathlib.Logic.Function.Basic

/-!
# Chains of links

A chain starts at a place that holds a pointer; the cell behind a pointer `a` holds the
next one at the place `nx a`.  `ld` says what each place holds.

    Seg nx ld q l z:  from the place `q` on, the pointers `l` follow one another, then `z`

A chain that ends in a `z` it does not contain is determined by its first place, has no
repetitions, and is what walking the links gives (`Seg.unique`, `Seg.nodup`,
`Seg.follow_eq`).  Writing one place links a cell in or out (`Seg.insert`, `Seg.remove`).
-/

namespace Linked

variable {α π : Type} (nx : α → π)

def Seg (ld : π → α) : π → List α → α → Prop
  | q, [], z => ld q = z
  | q, a :: l, z => ld q = a ∧ Seg ld (nx a) l z

/-- The place behind the last pointer of `l`. -/
def endPlace : π → List α → π
  | q, [] => q
  | _, a :: l => endPlace (nx a) l

/-- Walk the links from the place `q` to `z`, `n` pointers at most. -/
def follow [DecidableEq α] (ld : π → α) (z : α) : Nat → π → List α
  | 0, _ => []
  | n + 1, q => if ld q = z then [] else ld q :: follow ld z n (nx (ld q))

variable {nx} {ld ld' : π → α} {q r : π} {l l₁ l₂ : List α} {a p z : α}

theorem endPlace_append : endPlace nx q (l₁ ++ l₂) = endPlace nx (endPlace nx q l₁) l₂ := by
  induction l₁ generalizing q with
  | nil => rfl
  | cons a l ih => exact ih

@[simp] theorem endPlace_concat : endPlace nx q (l ++ [a]) = nx a := by
  rw [endPlace_append]
  rfl

theorem endPlace_cases (nx : α → π) (q : π) (l : List α) :
    (l = [] ∧ endPlace nx q l = q) ∨ ∃ a ∈ l, endPlace nx q l = nx a := by
  rcases List.eq_nil_or_concat l with h | ⟨l', a, h⟩
  · exact Or.inl ⟨h, by rw [h]; rfl⟩
  · exact Or.inr ⟨a, by rw [h]; simp, by rw [h, List.concat_eq_append, endPlace_concat]⟩

theorem seg_append :
    Seg nx ld q (l₁ ++ l₂) z ↔
      Seg nx ld q l₁ (ld (endPlace nx q l₁)) ∧ Seg nx ld (endPlace nx q l₁) l₂ z := by
  induction l₁ generalizing q with
  | nil => exact ⟨fun h => ⟨rfl, h⟩, fun h => h.2⟩
  | cons a l ih =>
    constructor
    · rintro ⟨h1, h2⟩
      obtain ⟨h3, h4⟩ := ih.mp h2
      exact ⟨⟨h1, h3⟩, h4⟩
    · rintro ⟨⟨h1, h3⟩, h4⟩
      exact ⟨h1, ih.mpr ⟨h3, h4⟩⟩

/-- Two loads that agree on the places of a chain have it in common. -/
theorem Seg.congr (h : Seg nx ld q l z) (hq : ld' q = ld q) (hl : ∀ a ∈ l, ld' (nx a) = ld (nx a)) :
    Seg nx ld' q l z := by
  induction l generalizing q with
  | nil => exact hq.trans h
  | cons a l ih =>
    refine ⟨hq.trans h.1, ih h.2 (hl a List.mem_cons_self) fun b hb => ?_⟩
    exact hl b (List.mem_cons_of_mem _ hb)

theorem Seg.unique {l' : List α} (h : Seg nx ld q l z) (h' : Seg nx ld q l' z) (hz : z ∉ l)
    (hz' : z ∉ l') : l = l' := by
  induction l generalizing q l' with
  | nil =>
    cases l' with
    | nil => rfl
    | cons b l' =>
      have hb : b = z := h'.1.symm.trans h
      exact absurd (by rw [hb]; exact List.mem_cons_self) hz'
  | cons a l ih =>
    cases l' with
    | nil =>
      have ha : a = z := h.1.symm.trans h'
      exact absurd (by rw [ha]; exact List.mem_cons_self) hz
    | cons b l' =>
      obtain rfl : a = b := h.1.symm.trans h'.1
      rw [ih h.2 h'.2 (fun hm => hz (List.mem_cons_of_mem _ hm))
        fun hm => hz' (List.mem_cons_of_mem _ hm)]

theorem Seg.nodup (h : Seg nx ld q l z) (hz : z ∉ l) : l.Nodup := by
  induction l generalizing q with
  | nil => exact List.nodup_nil
  | cons a l ih =>
    have hz' : z ∉ l := fun hm => hz (List.mem_cons_of_mem _ hm)
    refine List.nodup_cons.mpr ⟨fun hm => ?_, ih h.2 hz'⟩
    -- a second visit of `a` would go on as the first did, and never end
    obtain ⟨l₁, l₂, rfl⟩ := List.append_of_mem hm
    have h2 : Seg nx ld (nx a) l₂ z := (seg_append.mp h.2).2.2
    have heq := h.2.unique h2 hz' fun hm => hz' (by simp [hm])
    have := congrArg List.length heq
    simp only [List.length_append, List.length_cons] at this
    omega

theorem Seg.follow_eq [DecidableEq α] {n : Nat} (h : Seg nx ld q l z) (hz : z ∉ l)
    (hn : l.length ≤ n) : follow nx ld z n q = l := by
  induction l generalizing q n with
  | nil =>
    cases n with
    | zero => rfl
    | succ n => exact if_pos h
  | cons a l ih =>
    cases n with
    | zero => simp at hn
    | succ n =>
      have hne : ld q ≠ z := by
        rw [h.1]
        rintro rfl
        exact hz List.mem_cons_self
      rw [follow, if_neg hne, h.1]
      rw [ih h.2 (fun hm => hz (List.mem_cons_of_mem _ hm)) (by simpa using hn)]

/-- What stands at the end of the walk so far. -/
theorem Seg.load (h : Seg nx ld q (l₁ ++ l₂) z) : ld (endPlace nx q l₁) = (l₂ ++ [z]).head (by simp) := by
  have h2 := (seg_append.mp h).2
  cases l₂ with
  | nil => exact h2
  | cons a l => exact h2.1

/-! ## Writing one place -/

/-- Writing the last place of a chain changes only where it ends. -/
theorem Seg.retarget (hinj : Function.Injective nx) (h : Seg nx ld q l z) (hnd : l.Nodup)
    (hq : ∀ a ∈ l, nx a ≠ q) (hend : ld' (endPlace nx q l) = p)
    (hrest : ∀ r, (r = q ∨ ∃ a ∈ l, r = nx a) → r ≠ endPlace nx q l → ld' r = ld r) :
    Seg nx ld' q l p := by
  induction l generalizing q with
  | nil => exact hend
  | cons a l ih =>
    obtain ⟨ha, hnd'⟩ := List.nodup_cons.mp hnd
    have hne : q ≠ endPlace nx q (a :: l) := by
      rcases endPlace_cases nx q (a :: l) with ⟨h0, _⟩ | ⟨b, hb, he⟩
      · cases h0
      · rw [he]
        exact (hq b hb).symm
    refine ⟨(hrest q (Or.inl rfl) hne).trans h.1, ih h.2 hnd' (fun b hb he => ?_) hend ?_⟩
    · exact ha (hinj he ▸ hb)
    · intro r hr hre
      refine hrest r (Or.inr ?_) hre
      rcases hr with hr | ⟨b, hb, hr⟩
      · exact ⟨a, List.mem_cons_self, hr⟩
      · exact ⟨b, List.mem_cons_of_mem _ hb, hr⟩

/-- Link the cell `p`, whose own link is already set, behind `l₁`. -/
theorem Seg.insert (hinj : Function.Injective nx) (h : Seg nx ld q (l₁ ++ l₂) z)
    (hnd : (l₁ ++ l₂).Nodup) (hq : ∀ a ∈ l₁ ++ l₂, nx a ≠ q)
    (hend : ld' (endPlace nx q l₁) = p) (hp : ld' (nx p) = ld (endPlace nx q l₁))
    (hrest : ∀ r, (r = q ∨ ∃ a ∈ l₁ ++ l₂, r = nx a) → r ≠ endPlace nx q l₁ → ld' r = ld r) :
    Seg nx ld' q (l₁ ++ p :: l₂) z := by
  obtain ⟨h1, h2⟩ := seg_append.mp h
  obtain ⟨hnd1, hnd2, hdis⟩ := List.nodup_append.mp hnd
  refine seg_append.mpr ⟨?_, hend, ?_⟩
  · rw [hend]
    refine h1.retarget hinj hnd1 (fun a ha => hq a (List.mem_append_left _ ha)) hend fun r hr => ?_
    refine hrest r (hr.imp_right ?_)
    rintro ⟨a, ha, rfl⟩
    exact ⟨a, List.mem_append_left _ ha, rfl⟩
  · -- behind `p` the old chain goes on
    have h3 : ∀ a ∈ l₂, ld' (nx a) = ld (nx a) := by
      intro a ha
      refine hrest _ (Or.inr ⟨a, List.mem_append_right _ ha, rfl⟩) ?_
      rcases endPlace_cases nx q l₁ with ⟨-, he⟩ | ⟨b, hb, he⟩
      · rw [he]
        exact hq a (List.mem_append_right _ ha)
      · rw [he]
        exact fun hab => hdis b hb a ha (hinj hab).symm
    cases l₂ with
    | nil => exact hp.trans h2
    | cons b l₂ =>
      exact ⟨hp.trans h2.1, h2.2.congr (h3 b List.mem_cons_self)
        fun a ha => h3 a (List.mem_cons_of_mem _ ha)⟩

/-- Link the cell behind `l₁` out. -/
theorem Seg.remove (hinj : Function.Injective nx) (h : Seg nx ld q (l₁ ++ p :: l₂) z)
    (hnd : (l₁ ++ p :: l₂).Nodup) (hq : ∀ a ∈ l₁ ++ p :: l₂, nx a ≠ q)
    (hend : ld' (endPlace nx q l₁) = ld (nx p))
    (hrest : ∀ r, (r = q ∨ ∃ a ∈ l₁ ++ l₂, r = nx a) → r ≠ endPlace nx q l₁ → ld' r = ld r) :
    Seg nx ld' q (l₁ ++ l₂) z := by
  obtain ⟨h1, -, h2⟩ := seg_append.mp h
  obtain ⟨hnd1, hnd2, hdis⟩ := List.nodup_append.mp hnd
  have h3 : ∀ a ∈ l₂, ld' (nx a) = ld (nx a) := by
    intro a ha
    refine hrest _ (Or.inr ⟨a, List.mem_append_right _ ha, rfl⟩) ?_
    rcases endPlace_cases nx q l₁ with ⟨-, he⟩ | ⟨b, hb, he⟩
    · rw [he]
      exact hq a (by simp [ha])
    · rw [he]
      exact fun hab => hdis b hb a (by simp [ha]) (hinj hab).symm
  refine seg_append.mpr ⟨?_, ?_⟩
  · refine h1.retarget hinj hnd1 (fun a ha => hq a (List.mem_append_left _ ha)) rfl fun r hr => ?_
    refine hrest r (hr.imp_right ?_)
    rintro ⟨a, ha, rfl⟩
    exact ⟨a, List.mem_append_left _ ha, rfl⟩
  · cases l₂ with
    | nil => exact hend.trans h2
    | cons b l₂ =>
      exact ⟨hend.trans h2.1, h2.2.congr (h3 b List.mem_cons_self)
        fun a ha => h3 a (List.mem_cons_of_mem _ ha)⟩

end Linked
