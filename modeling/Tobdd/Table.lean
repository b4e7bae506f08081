import Mathlib.Data.List.Perm.Subperm
import Tobdd.Lib.Chain
import Tobdd.Set

/-!
# What the unique table means

`Store.chain s i` walks the links of bucket `i`; `Live` are the nodes on some chain.

`Store.Table`: every chain ends in the null pointer, goes up strictly by key, and holds
nodes whose hash belongs to their key and to the bucket.  `Table.of_chains` builds it from
a description of the chains, and `Table.insert` says what linking one node does.
-/

namespace Tobdd

open Linked

theorem Place.next_injective : Function.Injective Place.next := fun a b h => by
  injection h

/-- What a place holds, for a given array of heads. -/
def ldIn (B : Slice Bdd) (h : Heap) : Place → Bdd
  | .head i => B.get i
  | .next a => (h.get a).next

/-- `C i` is the chain of bucket `i`. -/
structure Chains (B : Slice Bdd) (h : Heap) (C : Nat → List Bdd) : Prop where
  seg : ∀ i, i < B.len → Seg Place.next (ldIn B h) (.head i) (C i) 0
  has : ∀ i, i < B.len → ∀ a ∈ C i, h.Has a
  once : ∀ i j, i < B.len → j < B.len → ∀ a, a ∈ C i → a ∈ C j → i = j

namespace Chains

variable {B : Slice Bdd} {h : Heap} {C : Nat → List Bdd} {i : Nat}

theorem zero_notMem (hc : Chains B h C) (hi : i < B.len) : 0 ∉ C i := fun h0 =>
  (hc.has i hi 0 h0).ne_zero rfl

theorem nodup (hc : Chains B h C) (hi : i < B.len) : (C i).Nodup :=
  (hc.seg i hi).nodup (hc.zero_notMem hi)

/-- No two links of a chain, and no head, are one place. -/
theorem next_ne_head (a : Bdd) : Place.next a ≠ .head i := fun h => by cases h

theorem length_le (hc : Chains B h C) (hi : i < B.len) : (C i).length ≤ h.brk := by
  have hsub : C i ⊆ List.range h.brk := fun a ha =>
    List.mem_range.mpr (hc.has i hi a ha).lt_brk
  have := ((hc.nodup hi).subperm hsub).length_le
  rwa [List.length_range] at this

end Chains

namespace Store

/-- The chain of bucket `i`. -/
def chain (s : Store) (i : Nat) : List Bdd :=
  follow Place.next (ldIn s.set.buckets s.heap) 0 s.heap.brk (.head i)

/-- The nodes on the chains. -/
def nodes (s : Store) : List Bdd := (List.range s.set.buckets.len).flatMap s.chain

/-- The node is linked in the table. -/
def Live (s : Store) (a : Bdd) : Prop := ∃ i, i < s.set.buckets.len ∧ a ∈ s.chain i

def key (s : Store) (a : Bdd) : Key := (s.heap.get a).key

structure Table (s : Store) : Prop where
  chains : Chains s.set.buckets s.heap s.chain
  sorted : ∀ i, i < s.set.buckets.len → (s.chain i).Pairwise fun a b => s.key a < s.key b
  home : ∀ i, i < s.set.buckets.len → ∀ a ∈ s.chain i,
    (s.heap.get a).HashOk ∧ maskIdx (s.heap.get a).hash s.set.sizeExp = i

/-- `num_entry` counts the nodes, those linked but not yet counted left out. -/
def Counted (s : Store) : Prop := s.set.numEntry + s.set.owed.length = s.nodes.length

/-- The array is as long as the mask assumes. -/
def Sized (s : Store) : Prop := s.set.buckets.len = shl64 s.set.sizeExp

structure Inv (s : Store) : Prop where
  table : s.Table
  counted : s.Counted

theorem ld_eq (s : Store) : s.ld = ldIn s.set.buckets s.heap := by
  funext p
  cases p <;> rfl

theorem mem_nodes {s : Store} {a : Bdd} : a ∈ s.nodes ↔ s.Live a := by
  unfold nodes Live
  simp only [List.mem_flatMap, List.mem_range]

/-- A description of the chains is what walking them gives. -/
theorem chain_eq {s : Store} {C : Nat → List Bdd} (hc : Chains s.set.buckets s.heap C) {i : Nat}
    (hi : i < s.set.buckets.len) : s.chain i = C i :=
  (hc.seg i hi).follow_eq (hc.zero_notMem hi) (hc.length_le hi)

theorem chains_self {s : Store} {C : Nat → List Bdd} (hc : Chains s.set.buckets s.heap C) :
    Chains s.set.buckets s.heap s.chain := by
  refine ⟨fun i hi => ?_, fun i hi a ha => ?_, fun i j hi hj a ha hb => ?_⟩
  · rw [chain_eq hc hi]
    exact hc.seg i hi
  · rw [chain_eq hc hi] at ha
    exact hc.has i hi a ha
  · rw [chain_eq hc hi] at ha
    rw [chain_eq hc hj] at hb
    exact hc.once i j hi hj a ha hb

theorem nodes_nodup {s : Store} {C : Nat → List Bdd} (hc : Chains s.set.buckets s.heap C) :
    s.nodes.Nodup := by
  have h := chains_self hc
  refine List.nodup_flatMap.mpr ⟨fun i hi => h.nodup (List.mem_range.mp hi), ?_⟩
  refine List.nodup_range.pairwise_of_forall_ne fun i hi j hj hne a ha hb => hne ?_
  exact h.once i j (List.mem_range.mp hi) (List.mem_range.mp hj) a ha hb

theorem Table.of_chains {s : Store} {C : Nat → List Bdd} (hc : Chains s.set.buckets s.heap C)
    (hs : ∀ i, i < s.set.buckets.len → (C i).Pairwise fun a b => s.key a < s.key b)
    (hh : ∀ i, i < s.set.buckets.len → ∀ a ∈ C i,
      (s.heap.get a).HashOk ∧ maskIdx (s.heap.get a).hash s.set.sizeExp = i) : s.Table := by
  refine ⟨chains_self hc, fun i hi => ?_, fun i hi a ha => ?_⟩
  · rw [chain_eq hc hi]
    exact hs i hi
  · rw [chain_eq hc hi] at ha
    exact hh i hi a ha

theorem Table.has {s : Store} (h : s.Table) {a : Bdd} (ha : s.Live a) : s.heap.Has a := by
  obtain ⟨i, hi, ha⟩ := ha
  exact h.chains.has i hi a ha

theorem Table.length_le {s : Store} (h : s.Table) {i : Nat} (hi : i < s.set.buckets.len) :
    (s.chain i).length ≤ s.heap.brk := h.chains.length_le hi

/-- Two nodes on one chain are ordered by their keys. -/
theorem Table.eq_of_key {s : Store} (h : s.Table) {i : Nat} (hi : i < s.set.buckets.len)
    {a b : Bdd} (ha : a ∈ s.chain i) (hb : b ∈ s.chain i) (hab : s.key a = s.key b) : a = b := by
  by_contra hne
  have hp := (h.sorted i hi).imp fun {a b} hlt => hlt
  rcases (List.pairwise_iff_getElem.mp hp) with hp'
  obtain ⟨m, hm, rfl⟩ := List.getElem_of_mem ha
  obtain ⟨k, hk, rfl⟩ := List.getElem_of_mem hb
  rcases Nat.lt_trichotomy m k with hlt | heq | hlt
  · exact absurd hab (ne_of_lt (hp' m k hm hk hlt))
  · subst heq
    exact hne rfl
  · exact absurd hab.symm (ne_of_lt (hp' k m hk hm hlt))

/-- No two nodes of the table have one key. -/
theorem Table.unique {s : Store} (h : s.Table) {a b : Bdd} (ha : s.Live a) (hb : s.Live b)
    (hab : s.key a = s.key b) : a = b := by
  obtain ⟨i, hi, ha⟩ := ha
  obtain ⟨j, hj, hb⟩ := hb
  obtain ⟨h1, h2⟩ := h.home i hi a ha
  obtain ⟨h3, h4⟩ := h.home j hj b hb
  have hij : i = j := by
    rw [← h2, ← h4, h1.eq_of_key h3 hab]
  subst hij
  exact h.eq_of_key hi ha hb hab

/-! ## Writing a place -/

section put
variable (s : Store) (b : Bdd) (q : Place)

@[simp] theorem put_len : (s.put b q).set.buckets.len = s.set.buckets.len := by cases q <;> rfl
@[simp] theorem put_sizeExp : (s.put b q).set.sizeExp = s.set.sizeExp := by cases q <;> rfl
@[simp] theorem put_owed : (s.put b q).set.owed = s.set.owed := by cases q <;> rfl
@[simp] theorem put_numEntry : (s.put b q).set.numEntry = s.set.numEntry := by cases q <;> rfl
@[simp] theorem put_numMarks : (s.put b q).set.numMarks = s.set.numMarks := by cases q <;> rfl
@[simp] theorem put_freeId : (s.put b q).freeId = s.freeId := by cases q <;> rfl
@[simp] theorem put_brk : (s.put b q).heap.brk = s.heap.brk := by cases q <;> rfl
@[simp] theorem put_tape : (s.put b q).heap.tape = s.heap.tape := by cases q <;> rfl
@[simp] theorem put_frees : (s.put b q).heap.frees = s.heap.frees := by cases q <;> rfl

@[simp] theorem put_has {a : Bdd} : (s.put b q).heap.Has a ↔ s.heap.Has a := by
  cases q with
  | head i => exact Iff.rfl
  | next c => exact Heap.modify_has

theorem put_get (a : Bdd) : (s.heap.get a).Relinked ((s.put b q).heap.get a) := by
  cases q with
  | head i => exact .refl _
  | next c => exact Heap.modify_next_get

theorem put_key (a : Bdd) : (s.put b q).key a = s.key a := by
  exact (put_get s b q a).key

theorem put_cell_of_ne {a : Bdd} (h : q ≠ .next a) : (s.put b q).heap.cell a = s.heap.cell a := by
  cases q with
  | head i => rfl
  | next c => exact Heap.modify_cell_of_ne fun hc => h (by rw [hc])

variable {s b q}

theorem put_ld_self (h : s.missing q = none) : (s.put b q).ld q = b := by
  cases q with
  | head i => exact Slice.set_get_self _ _ _
  | next a =>
    have ha : s.heap.Has a := by
      cases hc : s.heap.cell a with
      | none => simp [missing, hc] at h
      | some n => exact ⟨n, hc⟩
    show ((s.heap.modify a _).get a).next = b
    rw [Heap.modify_get_self ha]

theorem put_ld_of_ne {r : Place} (h : r ≠ q) : (s.put b q).ld r = s.ld r := by
  cases q with
  | head i =>
    cases r with
    | head j => exact Slice.set_get_of_ne _ _ fun hj => h (by rw [hj])
    | next a => rfl
  | next c =>
    cases r with
    | head j => rfl
    | next a =>
      show ((s.heap.modify c _).get a).next = _
      rw [Heap.modify_get_of_ne fun hc => h (by rw [hc])]
      rfl

theorem missing_head {i : Nat} (h : i < s.set.buckets.len) : s.missing (.head i) = none := if_pos h

theorem missing_next {a : Bdd} (h : s.heap.Has a) : s.missing (.next a) = none := by
  simp only [missing, h.cell]
  rfl

end put

/-! ## Accesses that are answered -/

section answered
variable {t : Nat} {s : Store} {q : Place} {a b : Bdd}

theorem exec_load (h : s.missing q = none) :
    Store.exec t (.load q) s = .ok (s.ld q, s) := by
  simp only [Store.exec, h]

theorem exec_load_eq {v : Bdd} (h : s.missing q = none) (hv : s.ld q = v) :
    Store.exec t (.load q) s = .ok (v, s) := by
  rw [← hv]
  exact exec_load h

theorem exec_missing {e : Resume.Stop} (h : s.missing q = some e) :
    Store.exec t (.load q) s = .error e := by
  simp only [Store.exec, h]

theorem exec_store (h : s.missing q = none) :
    Store.exec t (.store q b) s = .ok ((), s.put b q) := by
  simp only [Store.exec, h]

theorem exec_look {α : Type} {f : Node → α} (h : s.heap.Has a) :
    s.look a f = .ok (f (s.heap.get a), s) := by
  unfold look
  rw [h.cell]

theorem exec_field {α : Type} {f : Node → α} {v : α} (h : s.heap.Has a)
    (hv : f (s.heap.get a) = v) : s.look a f = .ok (v, s) := by
  rw [exec_look h, hv]

theorem exec_edit {f : Node → Node} (h : s.heap.Has a) :
    s.edit a f = .ok ((), { s with heap := s.heap.modify a f }) := by
  unfold edit
  rw [h.cell]

theorem exec_free (h : s.heap.Has a) :
    Store.exec t (.free a) s = .ok ((), { s with heap := s.heap.free a }) := by
  simp only [Store.exec, h.cell]

variable {s' : Store} {r : Bdd}

theorem look_ok {α : Type} {f : Node → α} {r : α} (h : s.look a f = .ok (r, s')) :
    r = f (s.heap.get a) ∧ s' = s := by
  unfold look at h
  unfold Heap.get
  split at h
  · next n hn =>
    obtain ⟨rfl, rfl⟩ := Prod.mk.inj (Except.ok.inj h)
    rw [hn]
    exact ⟨rfl, rfl⟩
  · cases h

theorem edit_ok {f : Node → Node} (h : s.edit a f = .ok ((), s')) :
    s' = { s with heap := s.heap.modify a f } := by
  unfold edit at h
  split at h
  · exact (Prod.mk.inj (Except.ok.inj h)).2.symm
  · cases h

theorem load_ok (h : Store.exec t (.load q) s = .ok (r, s')) :
    s.missing q = none ∧ r = s.ld q ∧ s' = s := by
  simp only [Store.exec] at h
  split at h
  · next hm =>
    obtain ⟨rfl, rfl⟩ := Prod.mk.inj (Except.ok.inj h)
    exact ⟨hm, rfl, rfl⟩
  · cases h

theorem store_ok (h : Store.exec t (.store q b) s = .ok ((), s')) : s' = s.put b q := by
  simp only [Store.exec] at h
  split at h
  · exact (Prod.mk.inj (Except.ok.inj h)).2.symm
  · cases h

/-- An exchange succeeds and is owed to the count, or fails and changes nothing. -/
theorem cas_ok {r : Bool} (h : Store.exec t (.cas q a b) s = .ok (r, s')) : s.missing q = none ∧
    (r = true ∧ s.ld q = a ∧
        s' = { s.put b q with set := { (s.put b q).set with owed := t :: (s.put b q).set.owed } } ∨
      r = false ∧ s.ld q ≠ a ∧ s' = s) := by
  simp only [Store.exec] at h
  split at h
  · next hm =>
    split at h
    · next hc =>
      obtain ⟨rfl, rfl⟩ := Prod.mk.inj (Except.ok.inj h)
      exact ⟨hm, Or.inl ⟨rfl, hc, rfl⟩⟩
    · next hc =>
      obtain ⟨rfl, rfl⟩ := Prod.mk.inj (Except.ok.inj h)
      exact ⟨hm, Or.inr ⟨rfl, hc, rfl⟩⟩
  · cases h

theorem free_ok (h : Store.exec t (.free a) s = .ok ((), s')) :
    s' = { s with heap := s.heap.free a } := by
  simp only [Store.exec] at h
  split at h
  · exact (Prod.mk.inj (Except.ok.inj h)).2.symm
  · cases h

end answered

end Store

namespace Chains

open Store

/-- The place behind a part of a chain is there. -/
theorem missing_end {s : Store} {C : Nat → List Bdd} (hc : Chains s.set.buckets s.heap C)
    {i : Nat} (hi : i < s.set.buckets.len) {l : List Bdd} (hl : ∀ a ∈ l, a ∈ C i) :
    s.missing (endPlace Place.next (.head i) l) = none := by
  rcases endPlace_cases Place.next (.head i) l with ⟨-, h⟩ | ⟨a, ha, h⟩
  · rw [h]
    exact missing_head hi
  · rw [h]
    exact missing_next (hc.has i hi a (hl a ha))

/-- The chains after the node `p` was linked behind `l₁`. -/
theorem insert {s : Store} {C : Nat → List Bdd} (hc : Chains s.set.buckets s.heap C)
    {i : Nat} (hi : i < s.set.buckets.len) {l₁ l₂ : List Bdd} (hsplit : C i = l₁ ++ l₂) {p : Bdd}
    (hp : s.heap.Has p) (hfresh : ∀ j, j < s.set.buckets.len → p ∉ C j)
    (hnext : s.ld (.next p) = s.ld (endPlace Place.next (.head i) l₁)) :
    Chains (s.put p (endPlace Place.next (.head i) l₁)).set.buckets
      (s.put p (endPlace Place.next (.head i) l₁)).heap (Function.update C i (l₁ ++ p :: l₂)) := by
  have hseg := hc.seg i hi
  have hnd := hc.nodup hi
  rw [hsplit] at hseg hnd
  have hpi := hfresh i hi
  rw [hsplit] at hpi
  have hmiss : s.missing (endPlace Place.next (.head i) l₁) = none :=
    hc.missing_end hi fun a ha => by rw [hsplit]; exact List.mem_append_left _ ha
  -- the place written is on the chain of bucket `i`
  have hplace : ∀ r, r = .head i ∨ (∃ a ∈ l₁, r = .next a) ∨ endPlace Place.next (.head i) l₁ ≠ r := by
    intro r
    rcases endPlace_cases Place.next (.head i) l₁ with ⟨-, h⟩ | ⟨a, ha, h⟩
    · by_cases hr : r = .head i
      · exact Or.inl hr
      · rw [h]
        exact Or.inr (Or.inr (Ne.symm hr))
    · by_cases hr : r = .next a
      · exact Or.inr (Or.inl ⟨a, ha, hr⟩)
      · rw [h]
        exact Or.inr (Or.inr (Ne.symm hr))
  have hnp : Place.next p ≠ endPlace Place.next (.head i) l₁ := by
    rcases hplace (.next p) with h | ⟨a, ha, h⟩ | h
    · cases h
    · injection h with h
      subst h
      exact absurd (List.mem_append_left _ ha) hpi
    · exact Ne.symm h
  rw [ld_eq] at hnext
  refine ⟨fun j hj => ?_, fun j hj a ha => ?_, fun j k hj hk a ha hb => ?_⟩
  · rw [put_len] at hj
    rw [← ld_eq]
    by_cases hji : j = i
    · subst hji
      rw [Function.update_self]
      refine hseg.insert Place.next_injective hnd (fun a _ => Chains.next_ne_head a)
        (put_ld_self hmiss) ?_ fun r _ hr => ?_
      · rw [put_ld_of_ne hnp, ld_eq]
        exact hnext
      · rw [put_ld_of_ne hr, ld_eq]
    · rw [Function.update_of_ne hji]
      refine (hc.seg j hj).congr ?_ fun a ha => ?_
      · rw [put_ld_of_ne, ld_eq]
        rcases hplace (.head j) with h | ⟨a, ha, h⟩ | h
        · injection h with h
          exact absurd h hji
        · cases h
        · exact Ne.symm h
      · rw [put_ld_of_ne, ld_eq]
        rcases hplace (.next a) with h | ⟨b, hb, h⟩ | h
        · cases h
        · injection h with h
          subst h
          exact absurd (hc.once j i hj hi a ha (by rw [hsplit]; exact List.mem_append_left _ hb)) hji
        · exact Ne.symm h
  · rw [put_len] at hj
    rw [put_has]
    by_cases hji : j = i
    · subst hji
      rw [Function.update_self] at ha
      rcases List.mem_append.mp ha with ha | ha
      · exact hc.has j hj a (by rw [hsplit]; exact List.mem_append_left _ ha)
      · rcases List.mem_cons.mp ha with rfl | ha
        · exact hp
        · exact hc.has j hj a (by rw [hsplit]; exact List.mem_append_right _ ha)
    · rw [Function.update_of_ne hji] at ha
      exact hc.has j hj a ha
  · rw [put_len] at hj hk
    -- a node of the new chain is `p` or was on the old one
    have hold : ∀ m, m < s.set.buckets.len → ∀ b, b ∈ Function.update C i (l₁ ++ p :: l₂) m →
        (b = p ∧ m = i) ∨ b ∈ C m := by
      intro m hm b hb
      by_cases hmi : m = i
      · subst hmi
        rw [Function.update_self] at hb
        rw [hsplit]
        simp only [List.mem_append, List.mem_cons] at hb ⊢
        tauto
      · rw [Function.update_of_ne hmi] at hb
        exact Or.inr hb
    rcases hold j hj a ha with ⟨h1, h2⟩ | h1 <;> rcases hold k hk a hb with ⟨h3, h4⟩ | h3
    · rw [h2, h4]
    · exact absurd (h1 ▸ h3) (hfresh k hk)
    · exact absurd (h3 ▸ h1) (hfresh j hj)
    · exact hc.once j k hj hk a h1 h3

/-- Two heaps that agree on the nodes of the chains. -/
theorem congr {B : Slice Bdd} {h h' : Heap} {C : Nat → List Bdd} (hc : Chains B h C)
    (hs : ∀ i, i < B.len → ∀ a ∈ C i, h'.Has a ∧ (h'.get a).next = (h.get a).next) :
    Chains B h' C where
  seg i hi := (hc.seg i hi).congr rfl fun a ha => (hs i hi a ha).2
  has i hi a ha := (hs i hi a ha).1
  once := hc.once

/-- The chains after the node `p` behind `l₁` was linked out. -/
theorem remove {s : Store} {C : Nat → List Bdd} (hc : Chains s.set.buckets s.heap C)
    {i : Nat} (hi : i < s.set.buckets.len) {l₁ l₂ : List Bdd} {p : Bdd}
    (hsplit : C i = l₁ ++ p :: l₂) :
    Chains (s.put (s.ld (.next p)) (endPlace Place.next (.head i) l₁)).set.buckets
      (s.put (s.ld (.next p)) (endPlace Place.next (.head i) l₁)).heap
      (Function.update C i (l₁ ++ l₂)) := by
  have hseg := hc.seg i hi
  have hnd := hc.nodup hi
  rw [hsplit] at hseg hnd
  have hmiss : s.missing (endPlace Place.next (.head i) l₁) = none :=
    hc.missing_end hi fun a ha => by rw [hsplit]; exact List.mem_append_left _ ha
  have hold : ∀ j, j < s.set.buckets.len → ∀ a ∈ Function.update C i (l₁ ++ l₂) j, a ∈ C j := by
    intro j hj a ha
    by_cases hji : j = i
    · subst hji
      rw [Function.update_self] at ha
      rw [hsplit]
      simp only [List.mem_append, List.mem_cons] at ha ⊢
      tauto
    · rwa [Function.update_of_ne hji] at ha
  refine ⟨fun j hj => ?_, fun j hj a ha => ?_, fun j k hj hk a ha hb => ?_⟩
  · rw [put_len] at hj
    rw [← ld_eq]
    by_cases hji : j = i
    · subst hji
      rw [Function.update_self]
      refine hseg.remove Place.next_injective hnd (fun a _ => Chains.next_ne_head a) ?_
        fun r _ hr => ?_
      · rw [put_ld_self hmiss, ld_eq]
      · rw [put_ld_of_ne hr, ld_eq]
    · rw [Function.update_of_ne hji]
      -- the place written is on another chain
      have hother : ∀ r, (r = .head j ∨ ∃ a ∈ C j, r = .next a) →
          r ≠ endPlace Place.next (.head i) l₁ := by
        rintro r hr he
        rcases endPlace_cases Place.next (.head i) l₁ with ⟨-, h⟩ | ⟨b, hb, h⟩
        · rcases hr with rfl | ⟨a, ha, rfl⟩
          · rw [h] at he
            injection he with he
            exact hji he
          · rw [h] at he
            cases he
        · rcases hr with rfl | ⟨a, ha, rfl⟩
          · rw [h] at he
            cases he
          · rw [h] at he
            injection he with he
            subst he
            refine hji (hc.once j i hj hi a ha ?_)
            rw [hsplit]
            exact List.mem_append_left _ hb
      refine (hc.seg j hj).congr ?_ fun a ha => ?_
      · rw [put_ld_of_ne (hother _ (Or.inl rfl)), ld_eq]
      · rw [put_ld_of_ne (hother _ (Or.inr ⟨a, ha, rfl⟩)), ld_eq]
  · rw [put_len] at hj
    rw [put_has]
    exact hc.has j hj a (hold j hj a ha)
  · rw [put_len] at hj hk
    exact hc.once j k hj hk a (hold j hj a ha) (hold k hk a hb)

end Chains

namespace Store

/-- The table does not see what happens to nodes that are not linked, nor the counts of
references. -/
theorem Table.congr {s u : Store} (h : s.Table) (hb : u.set.buckets = s.set.buckets)
    (he : u.set.sizeExp = s.set.sizeExp)
    (hc : ∀ a, s.Live a → u.heap.Has a ∧ (s.heap.get a).Recounted (u.heap.get a)) :
    u.Table ∧ ∀ j, j < s.set.buckets.len → u.chain j = s.chain j := by
  have hch : Chains u.set.buckets u.heap s.chain := by
    rw [hb]
    refine ⟨fun j hj => ?_, fun j hj a ha => (hc a ⟨j, hj, ha⟩).1, h.chains.once⟩
    exact (h.chains.seg j hj).congr rfl fun a ha => (hc a ⟨j, hj, ha⟩).2.next
  refine ⟨Table.of_chains hch (fun j hj => ?_) fun j hj a ha => ?_, fun j hj => ?_⟩
  · rw [hb] at hj
    refine (h.sorted j hj).imp_of_mem fun {a b} ha hb hab => ?_
    show (u.heap.get a).key < (u.heap.get b).key
    rw [(hc a ⟨j, hj, ha⟩).2.key, (hc b ⟨j, hj, hb⟩).2.key]
    exact hab
  · rw [hb] at hj
    obtain ⟨h1, h2⟩ := h.home j hj a ha
    have hr := (hc a ⟨j, hj, ha⟩).2
    rw [hr.hash, he]
    exact ⟨hr.hashOk h1, h2⟩
  · exact chain_eq hch (by rw [hb]; exact hj)

theorem live_congr {s u : Store} (hb : u.set.buckets = s.set.buckets)
    (hc : ∀ j, j < s.set.buckets.len → u.chain j = s.chain j) (a : Bdd) :
    u.Live a ↔ s.Live a := by
  unfold Live
  rw [hb]
  exact exists_congr fun j => and_congr_right fun hj => by rw [hc j hj]

theorem Inv.congr {s u : Store} (h : s.Inv) (hb : u.set.buckets = s.set.buckets)
    (he : u.set.sizeExp = s.set.sizeExp) (hn : u.set.numEntry = s.set.numEntry)
    (ho : u.set.owed = s.set.owed)
    (hc : ∀ a, s.Live a → u.heap.Has a ∧ (s.heap.get a).Recounted (u.heap.get a)) :
    u.Inv ∧ ∀ j, j < s.set.buckets.len → u.chain j = s.chain j := by
  obtain ⟨ht, hch⟩ := h.table.congr hb he hc
  refine ⟨⟨ht, ?_⟩, hch⟩
  have hnodes : u.nodes = s.nodes := by
    unfold nodes
    rw [hb]
    exact List.flatMap_congr fun j hj => hch j (List.mem_range.mp hj)
  have hcount := h.counted
  unfold Counted at hcount ⊢
  rw [hnodes, hn, ho, hcount]

/-- Linking a node in at its place. -/
theorem Table.insert {s : Store} (h : s.Table) {i : Nat} (hi : i < s.set.buckets.len)
    {l₁ l₂ : List Bdd} (hsplit : s.chain i = l₁ ++ l₂) {p : Bdd} (hp : s.heap.Has p)
    (hfresh : ¬ s.Live p) (hnext : s.ld (.next p) = s.ld (endPlace Place.next (.head i) l₁))
    (hhash : (s.heap.get p).HashOk) (hidx : maskIdx (s.heap.get p).hash s.set.sizeExp = i)
    (h1 : ∀ a ∈ l₁, s.key a < s.key p) (h2 : ∀ a ∈ l₂, s.key p < s.key a) :
    (s.put p (endPlace Place.next (.head i) l₁)).Table ∧
    ∀ j, j < s.set.buckets.len → (s.put p (endPlace Place.next (.head i) l₁)).chain j =
      Function.update s.chain i (l₁ ++ p :: l₂) j := by
  have hc := h.chains.insert hi hsplit hp (fun j hj hm => hfresh ⟨j, hj, hm⟩) hnext
  refine ⟨Table.of_chains hc (fun j hj => ?_) fun j hj a ha => ?_, fun j hj => ?_⟩
  · rw [put_len] at hj
    simp only [put_key]
    by_cases hji : j = i
    · subst hji
      rw [Function.update_self]
      have hs := h.sorted j hj
      rw [hsplit] at hs
      obtain ⟨hs1, hs2, hs3⟩ := List.pairwise_append.mp hs
      refine List.pairwise_append.mpr ⟨hs1, List.pairwise_cons.mpr ⟨h2, hs2⟩, fun a ha b hb => ?_⟩
      rcases List.mem_cons.mp hb with rfl | hb
      · exact h1 a ha
      · exact hs3 a ha b hb
    · rw [Function.update_of_ne hji]
      exact h.sorted j hj
  · rw [put_len] at hj
    have hl := put_get s p (endPlace Place.next (.head i) l₁) a
    rw [hl.hash, put_sizeExp]
    suffices h' : (s.heap.get a).HashOk ∧ maskIdx (s.heap.get a).hash s.set.sizeExp = j from
      ⟨hl.hashOk h'.1, h'.2⟩
    by_cases hji : j = i
    · subst hji
      rw [Function.update_self] at ha
      by_cases hap : a = p
      · subst hap
        exact ⟨hhash, hidx⟩
      · refine h.home j hj a ?_
        rw [hsplit]
        simp only [List.mem_append, List.mem_cons] at ha ⊢
        tauto
    · rw [Function.update_of_ne hji] at ha
      exact h.home j hj a ha
  · exact chain_eq hc (by rw [put_len]; exact hj)

/-- The nodes after one was linked in. -/
theorem live_insert {s u : Store} (hlen : u.set.buckets.len = s.set.buckets.len) {i : Nat}
    (hi : i < s.set.buckets.len) {l₁ l₂ : List Bdd} {p : Bdd} (hsplit : s.chain i = l₁ ++ l₂)
    (hch : ∀ j, j < s.set.buckets.len →
      u.chain j = Function.update s.chain i (l₁ ++ p :: l₂) j) (a : Bdd) :
    u.Live a ↔ s.Live a ∨ a = p := by
  constructor
  · rintro ⟨j, hj, ha⟩
    rw [hlen] at hj
    rw [hch j hj] at ha
    by_cases hji : j = i
    · subst hji
      rw [Function.update_self] at ha
      rcases List.mem_append.mp ha with ha | ha
      · exact Or.inl ⟨j, hj, by rw [hsplit]; exact List.mem_append_left _ ha⟩
      · rcases List.mem_cons.mp ha with ha | ha
        · exact Or.inr ha
        · exact Or.inl ⟨j, hj, by rw [hsplit]; exact List.mem_append_right _ ha⟩
    · rw [Function.update_of_ne hji] at ha
      exact Or.inl ⟨j, hj, ha⟩
  · rintro (⟨j, hj, ha⟩ | rfl)
    · refine ⟨j, by rw [hlen]; exact hj, ?_⟩
      rw [hch j hj]
      by_cases hji : j = i
      · subst hji
        rw [Function.update_self]
        rw [hsplit] at ha
        simp only [List.mem_append, List.mem_cons] at ha ⊢
        tauto
      · rw [Function.update_of_ne hji]
        exact ha
    · refine ⟨i, by rw [hlen]; exact hi, ?_⟩
      rw [hch i hi, Function.update_self]
      simp

/-- A table without nodes. -/
theorem Inv.of_empty {s : Store} (h : ∀ i, i < s.set.buckets.len → s.set.buckets.get i = 0)
    (hn : s.set.numEntry = 0) (ho : s.set.owed = []) : s.Inv := by
  have hc : Chains s.set.buckets s.heap fun _ => [] :=
    ⟨fun i hi => h i hi, fun i _ a ha => absurd ha List.not_mem_nil,
      fun i j _ _ a ha => absurd ha List.not_mem_nil⟩
  refine ⟨Table.of_chains hc (fun _ _ => .nil)
    (fun i _ a ha => absurd ha List.not_mem_nil), ?_⟩
  have hnodes : s.nodes = [] := List.flatMap_eq_nil_iff.mpr fun i hi =>
    chain_eq hc (List.mem_range.mp hi)
  unfold Counted
  rw [hnodes, hn, ho]
  rfl

end Store

end Tobdd
