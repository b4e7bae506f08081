import Mathlib.Data.List.Count
import Tobdd.Cache
import Tobdd.Lib.Threads

/-!
# Threads on one memo table

`LockFreeCache::get` and `insert` step by step: every load and exchange of a slot's lock
word (`SpinRwLock::read`, `try_write_once`), every read of a field under a read guard,
and the two field writes of an insert are one operation each.  `invalidate_all` and
`grow` run only while no thread is inside the table, as the manager's write lock
guarantees.

`proof` is the rely-guarantee proof of all that, for every interleaving of any number of threads:
a slot is in the hands of one writer or of readers (`SlotOk`), and its pair is the default one or one
that an insert stored (`Whole`).
-/

namespace Tobdd.CacheThreads

open Resume

/-- The table, which coming weak exchanges fail spuriously, and (for the proof only) the
threads that hold a read guard of a slot or write to it, the pairs that inserts have
stored in a slot, and the threads that are inside a call. -/
structure Shared (Tid K V : Type) where
  cache : LockFreeCache K V
  weak : Nat → Bool
  readers : Nat → List Tid
  writers : Nat → List Tid
  stored : Nat → List (K × V)
  busy : List Tid

inductive Op (K V : Type) where
  /-- `&entries[(hash & mask) as usize]` -/
  | slot (hash : UInt64)
  /-- `state.load` -/
  | load (i : Nat)
  /-- `compare_exchange_weak(s, s + 1)` -/
  | casRead (i : Nat) (s : Int)
  | readKey (i : Nat)
  | readValue (i : Nat)
  /-- `state.fetch_sub(1)` -/
  | fetchSub (i : Nat)
  /-- `compare_exchange(0, -1)` -/
  | casWrite (i : Nat)
  | writeKey (i : Nat) (key : K)
  | writeValue (i : Nat) (value : V)
  /-- `state.store(0)`, the end of the insert of this pair -/
  | release (i : Nat) (pair : K × V)
  | panic
  | spinLoop

def sig (K V : Type) : Sig where
  Op := Op K V
  Res
    | .slot _ => Nat
    | .load _ => Int
    | .casRead _ _ => Bool
    | .readKey _ => K
    | .readValue _ => V
    | .fetchSub _ => Unit
    | .casWrite _ => Bool
    | .writeKey _ _ => Unit
    | .writeValue _ _ => Unit
    | .release _ _ => Unit
    | .panic => Empty
    | .spinLoop => Empty

/-- What a call returns: `get` a value, `insert` whether it wrote. -/
inductive Ret (V : Type) where
  | value (v : V)
  | done (b : Bool)
  deriving DecidableEq

section
variable {Tid K V : Type} [DecidableEq Tid] [Inhabited K] [Inhabited V]

/-! ## The code -/

/-- `SpinRwLock::read` of slot `i`. -/
def read (i : Nat) : Nat → Prog (sig K V) Unit
  | 0 => .step .spinLoop Empty.elim
  | n + 1 => do
    let s : Int ← Prog.op (S := sig K V) (.load i)
    -- there is a write, spin
    if s < 0 then
      read i n
    else if s = isizeMax then
      -- "reader count overflow"
      .step .panic Empty.elim
    else do
      let ok : Bool ← Prog.op (S := sig K V) (.casRead i s)
      if ok then return () else read i n

/-- `LockFreeCache::get`; the read guard is dropped on return. -/
def get [DecidableEq K] (hash : UInt64) (q : K) (n : Nat) : Prog (sig K V) (Ret V) := do
  let i : Nat ← Prog.op (S := sig K V) (.slot hash)
  read i n
  let k : K ← Prog.op (S := sig K V) (.readKey i)
  if k = q then do
    let v : V ← Prog.op (S := sig K V) (.readValue i)
    let _ : Unit ← Prog.op (S := sig K V) (.fetchSub i)
    return .value v
  else do
    let _ : Unit ← Prog.op (S := sig K V) (.fetchSub i)
    return .value default

/-- `LockFreeCache::insert`, through `try_write_once`. -/
def insert (hash : UInt64) (key : K) (value : V) : Prog (sig K V) (Ret V) := do
  let i : Nat ← Prog.op (S := sig K V) (.slot hash)
  let s : Int ← Prog.op (S := sig K V) (.load i)
  if s ≠ 0 then
    return .done false
  else do
    let ok : Bool ← Prog.op (S := sig K V) (.casWrite i)
    if ok then do
      let _ : Unit ← Prog.op (S := sig K V) (.writeKey i key)
      let _ : Unit ← Prog.op (S := sig K V) (.writeValue i value)
      let _ : Unit ← Prog.op (S := sig K V) (.release i (key, value))
      return .done true
    else
      return .done false

def Shared.slot (w : Shared Tid K V) (i : Nat) : Slot K V := w.cache.entries.get i

/-- The table with slot `i` overwritten. -/
def Shared.cacheSet (w : Shared Tid K V) (i : Nat) (s : Slot K V) : LockFreeCache K V :=
  { w.cache with entries := w.cache.entries.set i s }

def exec (t : Tid) : (o : (sig K V).Op) → Shared Tid K V →
    Except Stop ((sig K V).Res o × Shared Tid K V)
  | .slot hash, w =>
    let i := w.cache.slotIdx hash
    if i < w.cache.entries.len then .ok (i, w) else .error .panic
  | .load i, w => .ok ((w.slot i).state, w)
  | .casRead i s, w =>
    let rest : Nat → Bool := fun i => w.weak (i + 1)
    if (w.slot i).state = s ∧ w.weak 0 = false then
      .ok (true, { w with
        cache := w.cacheSet i { w.slot i with state := s + 1 }
        weak := rest
        readers := Function.update w.readers i (t :: w.readers i) })
    else .ok (false, { w with weak := rest })
  | .readKey i, w => .ok ((w.slot i).key, w)
  | .readValue i, w => .ok ((w.slot i).value, w)
  | .fetchSub i, w =>
    .ok ((), { w with
      cache := w.cacheSet i { w.slot i with state := (w.slot i).state - 1 }
      readers := Function.update w.readers i ((w.readers i).erase t) })
  | .casWrite i, w =>
    if (w.slot i).state = 0 then
      .ok (true, { w with
        cache := w.cacheSet i { w.slot i with state := -1 }
        writers := Function.update w.writers i (t :: w.writers i) })
    else .ok (false, w)
  | .writeKey i key, w => .ok ((), { w with cache := w.cacheSet i { w.slot i with key := key } })
  | .writeValue i value, w =>
    .ok ((), { w with cache := w.cacheSet i { w.slot i with value := value } })
  | .release i pair, w =>
    .ok ((), { w with
      cache := w.cacheSet i { w.slot i with state := 0 }
      writers := Function.update w.writers i ((w.writers i).erase t)
      stored := Function.update w.stored i (pair :: w.stored i) })
  | .panic, _ => .error .panic
  | .spinLoop, _ => .error .spin

/-! ## The threads -/

inductive Call (K V : Type) where
  | get (hash : UInt64) (q : K)
  | insert (hash : UInt64) (key : K) (value : V)
  | invalidateAll
  | grow
  deriving DecidableEq

def tables [DecidableEq K] : System (sig K V) (Shared Tid K V) Tid (Call K V) (Ret V) where
  exec := exec
  code _ c n :=
    match c with
    | .get hash q => get hash q n
    | .insert hash key value => insert hash key value
    | .invalidateAll | .grow => return .done true
  -- the manager runs these two under its write lock
  legal _ c w :=
    match c with
    | .get _ _ | .insert _ _ _ => True
    | .invalidateAll | .grow => w.busy = []
  enter t c w :=
    match c with
    | .get _ _ | .insert _ _ _ => { w with busy := t :: w.busy }
    | .invalidateAll =>
      { w with cache := w.cache.invalidateAll, stored := fun _ => [], busy := t :: w.busy }
    | .grow => { w with cache := w.cache.grow, stored := fun _ => [], busy := t :: w.busy }
  leave t _ _ w := { w with busy := w.busy.erase t }

/-- A table that `with_capacity` made. -/
def new (cap : UInt64) (weak : Nat → Bool) : Shared Tid K V :=
  ⟨.withCapacity cap, weak, fun _ => [], fun _ => [], fun _ => [], []⟩

/-! ## The invariant -/

/-- The pair of slot `i` is the default one, or some insert stored it. -/
def Whole (w : Shared Tid K V) (i : Nat) : Prop :=
  ((w.slot i).key = default ∧ (w.slot i).value = default) ∨
    ((w.slot i).key, (w.slot i).value) ∈ w.stored i

inductive SlotOk (w : Shared Tid K V) (i : Nat) : Prop
  | shared : w.writers i = [] → (w.slot i).state = (w.readers i).length →
      ((w.readers i).length : Int) ≤ isizeMax → Whole w i → SlotOk w i
  | writing (t : Tid) : w.writers i = [t] → w.readers i = [] → (w.slot i).state = -1 → SlotOk w i

omit [DecidableEq Tid] in
theorem SlotOk.congr {w w' : Shared Tid K V} {i : Nat} (h : SlotOk w i)
    (hs : w'.slot i = w.slot i) (hr : w'.readers i = w.readers i)
    (hw : w'.writers i = w.writers i) (hst : w'.stored i = w.stored i) : SlotOk w' i := by
  cases h with
  | shared a b c d =>
    refine .shared (by rw [hw, a]) (by rw [hs, hr, b]) (by rw [hr]; exact c) ?_
    unfold Whole
    rw [hs, hst]
    exact d
  | writing u a b c => exact .writing u (by rw [hw, a]) (by rw [hr, b]) (by rw [hs, c])

structure Inv (w : Shared Tid K V) : Prop where
  slot : ∀ i, SlotOk w i
  busy : ∀ i t, t ∈ w.readers i ∨ t ∈ w.writers i → t ∈ w.busy

/-- What thread `t` keeps while others act: its guards and the pairs it guards; inside a
call also the array and what was stored. -/
structure Keeps (t : Tid) (w w' : Shared Tid K V) : Prop where
  busy : w'.busy.count t = w.busy.count t
  readers : ∀ i, (w'.readers i).count t = (w.readers i).count t
  writers : ∀ i, (w'.writers i).count t = (w.writers i).count t
  pair : ∀ i, t ∈ w.readers i ∨ t ∈ w.writers i →
    (w'.slot i).key = (w.slot i).key ∧ (w'.slot i).value = (w.slot i).value
  table : t ∈ w.busy → w'.cache.sizeExp = w.cache.sizeExp
  stored : t ∈ w.busy → ∀ i x, x ∈ w.stored i → x ∈ w'.stored i

structure Guar (t : Tid) (w w' : Shared Tid K V) : Prop where
  inv : Inv w → Inv w'
  keeps : Inv w → ∀ u, u ≠ t → Keeps u w w'

omit [Inhabited K] [Inhabited V] in
theorem Keeps.refl (t : Tid) (w : Shared Tid K V) : Keeps t w w :=
  ⟨rfl, fun _ => rfl, fun _ => rfl, fun _ _ => ⟨rfl, rfl⟩, fun _ => rfl, fun _ _ _ h => h⟩

omit [Inhabited K] [Inhabited V] in
theorem Keeps.mem_readers {t : Tid} {w w' : Shared Tid K V} (h : Keeps t w w') (i : Nat) :
    t ∈ w'.readers i ↔ t ∈ w.readers i := by
  rw [← List.count_pos_iff, h.readers i, List.count_pos_iff]

omit [Inhabited K] [Inhabited V] in
theorem Keeps.mem_writers {t : Tid} {w w' : Shared Tid K V} (h : Keeps t w w') (i : Nat) :
    t ∈ w'.writers i ↔ t ∈ w.writers i := by
  rw [← List.count_pos_iff, h.writers i, List.count_pos_iff]

omit [Inhabited K] [Inhabited V] in
theorem Keeps.mem_busy {t : Tid} {w w' : Shared Tid K V} (h : Keeps t w w') :
    t ∈ w'.busy ↔ t ∈ w.busy := by
  rw [← List.count_pos_iff, h.busy, List.count_pos_iff]

omit [Inhabited K] [Inhabited V] in
theorem Keeps.trans {t : Tid} {w1 w2 w3 : Shared Tid K V} (h1 : Keeps t w1 w2)
    (h2 : Keeps t w2 w3) : Keeps t w1 w3 := by
  refine ⟨h2.busy.trans h1.busy, fun i => (h2.readers i).trans (h1.readers i),
    fun i => (h2.writers i).trans (h1.writers i), fun i h => ?_, fun h => ?_, fun h i x hx => ?_⟩
  · have hp1 := h1.pair i h
    rw [← h1.mem_readers, ← h1.mem_writers] at h
    have hp2 := h2.pair i h
    exact ⟨hp2.1.trans hp1.1, hp2.2.trans hp1.2⟩
  · exact (h2.table (h1.mem_busy.mpr h)).trans (h1.table h)
  · exact h2.stored (h1.mem_busy.mpr h) i x (h1.stored h i x hx)

/-- `w'` is `w` with slot `i` overwritten by `s`; the ghost fields of slot `i` may differ. -/
structure Sets (i : Nat) (s : Slot K V) (w w' : Shared Tid K V) : Prop where
  cache : w'.cache = w.cacheSet i s
  busy : w'.busy = w.busy
  readers : ∀ j, j ≠ i → w'.readers j = w.readers j
  writers : ∀ j, j ≠ i → w'.writers j = w.writers j
  stored : ∀ j, j ≠ i → w'.stored j = w.stored j

omit [DecidableEq Tid] [Inhabited K] [Inhabited V] in
theorem Sets.self {i : Nat} {s : Slot K V} {w w' : Shared Tid K V} (h : Sets i s w w') :
    w'.slot i = s := by
  unfold Shared.slot
  rw [h.cache]
  exact Slice.set_get_self _ _ _

omit [DecidableEq Tid] [Inhabited K] [Inhabited V] in
theorem Sets.other {i j : Nat} {s : Slot K V} {w w' : Shared Tid K V} (h : Sets i s w w')
    (hj : j ≠ i) : w'.slot j = w.slot j := by
  unfold Shared.slot
  rw [h.cache]
  exact Slice.set_get_of_ne _ _ hj

omit [DecidableEq Tid] [Inhabited K] [Inhabited V] in
theorem Sets.slotIdx {i : Nat} {s : Slot K V} {w w' : Shared Tid K V} (h : Sets i s w w')
    (hash : UInt64) : w'.cache.slotIdx hash = w.cache.slotIdx hash := by
  rw [h.cache]
  rfl

/-- A step on slot `i` alone is fine if it is fine there. -/
theorem Guar.of_slot {t : Tid} {i : Nat} {s : Slot K V} {w w' : Shared Tid K V}
    (h : Sets i s w w') (hok : Inv w → SlotOk w' i)
    (hmem : Inv w → ∀ u, u ∈ w'.readers i ∨ u ∈ w'.writers i → u ∈ w.busy)
    (hcount : ∀ u, u ≠ t → (w'.readers i).count u = (w.readers i).count u ∧
      (w'.writers i).count u = (w.writers i).count u)
    (hpair : Inv w → ∀ u, u ≠ t → u ∈ w.readers i ∨ u ∈ w.writers i →
      s.key = (w.slot i).key ∧ s.value = (w.slot i).value)
    (hstored : ∀ x, x ∈ w.stored i → x ∈ w'.stored i) : Guar t w w' := by
  refine ⟨fun hv => ⟨fun j => ?_, fun j u hu => ?_⟩, fun hv u hu => ⟨by rw [h.busy], fun j => ?_,
    fun j => ?_, fun j hj => ?_, fun _ => by rw [h.cache]; rfl, fun _ j x hx => ?_⟩⟩
  all_goals by_cases hji : j = i
  · subst hji; exact hok hv
  · exact (hv.slot j).congr (h.other hji) (h.readers j hji) (h.writers j hji) (h.stored j hji)
  · subst hji; rw [h.busy]; exact hmem hv u hu
  · rw [h.readers j hji, h.writers j hji] at hu
    rw [h.busy]
    exact hv.busy j u hu
  · subst hji; exact (hcount u hu).1
  · rw [h.readers j hji]
  · subst hji; exact (hcount u hu).2
  · rw [h.writers j hji]
  · subst hji; rw [h.self]; exact hpair hv u hu hj
  · rw [h.other hji]; exact ⟨rfl, rfl⟩
  · subst hji; exact hstored x hx
  · rw [h.stored j hji]; exact hx

/-- A step that changes neither slots nor guards. -/
theorem Guar.same {t : Tid} {w : Shared Tid K V} (weak : Nat → Bool) :
    Guar t w { w with weak := weak } :=
  ⟨fun h => ⟨fun i => (h.slot i).congr rfl rfl rfl rfl, h.busy⟩,
    fun _ _ _ => ⟨rfl, fun _ => rfl, fun _ => rfl, fun _ _ => ⟨rfl, rfl⟩, fun _ => rfl,
      fun _ _ _ h => h⟩⟩

/-! ## Each step on a slot -/

omit [DecidableEq Tid] in
/-- A slot with a reader is not written to. -/
theorem SlotOk.of_reader {w : Shared Tid K V} {i : Nat} {t : Tid} (h : SlotOk w i)
    (ht : t ∈ w.readers i) : w.writers i = [] ∧ (w.slot i).state = (w.readers i).length ∧
      ((w.readers i).length : Int) ≤ isizeMax ∧ Whole w i := by
  cases h with
  | shared a b c d => exact ⟨a, b, c, d⟩
  | writing u a b c => rw [b] at ht; cases ht

omit [DecidableEq Tid] in
/-- A slot with a writer has no reader and no other writer. -/
theorem SlotOk.of_writer {w : Shared Tid K V} {i : Nat} {t : Tid} (h : SlotOk w i)
    (ht : t ∈ w.writers i) : w.writers i = [t] ∧ w.readers i = [] ∧ (w.slot i).state = -1 := by
  cases h with
  | shared a b c d => rw [a] at ht; cases ht
  | writing u a b c =>
    rw [a, List.mem_singleton] at ht
    subst ht
    exact ⟨a, b, c⟩

theorem guar_casRead {t : Tid} {i : Nat} {w w' : Shared Tid K V}
    (h0 : ¬ (w.slot i).state < 0) (hmax : (w.slot i).state ≠ isizeMax) (ht : t ∈ w.busy)
    (h : Sets i { w.slot i with state := (w.slot i).state + 1 } w w')
    (hr : w'.readers i = t :: w.readers i) (hw : w'.writers i = w.writers i)
    (hs : w'.stored i = w.stored i) : Guar t w w' := by
  refine .of_slot h (fun hv => ?_) (fun hv u hu => ?_)
    (fun u hu => ⟨by rw [hr, List.count_cons_of_ne (Ne.symm hu)], by rw [hw]⟩)
    (fun _ _ _ _ => ⟨rfl, rfl⟩) (fun x hx => by rwa [hs])
  · cases hv.slot i with
    | shared a b c d =>
      refine .shared (by rw [hw, a]) ?_ ?_ (by unfold Whole; rw [h.self, hs]; exact d)
      · rw [h.self, hr, List.length_cons]
        show (w.slot i).state + 1 = _
        omega
      · rw [hr, List.length_cons]
        omega
    | writing u a b c => omega
  · rw [hr, hw, List.mem_cons] at hu
    rcases hu with (rfl | hu) | hu
    · exact ht
    · exact hv.busy i u (Or.inl hu)
    · exact hv.busy i u (Or.inr hu)

theorem guar_fetchSub {t : Tid} {i : Nat} {w w' : Shared Tid K V} (ht : t ∈ w.readers i)
    (h : Sets i { w.slot i with state := (w.slot i).state - 1 } w w')
    (hr : w'.readers i = (w.readers i).erase t) (hw : w'.writers i = w.writers i)
    (hs : w'.stored i = w.stored i) : Guar t w w' := by
  have hlen : (w'.readers i).length = (w.readers i).length - 1 := by
    rw [hr, List.length_erase_of_mem ht]
  have hpos := List.length_pos_of_mem ht
  refine .of_slot h (fun hv => ?_) (fun hv u hu => ?_)
    (fun u hu => ⟨by rw [hr, List.count_erase_of_ne hu], by rw [hw]⟩)
    (fun _ _ _ _ => ⟨rfl, rfl⟩) (fun x hx => by rwa [hs])
  · obtain ⟨a, b, c, d⟩ := (hv.slot i).of_reader ht
    refine .shared (by rw [hw, a]) ?_ (by omega) (by unfold Whole; rw [h.self, hs]; exact d)
    rw [h.self]
    show (w.slot i).state - 1 = _
    omega
  · rw [hr, hw] at hu
    exact hv.busy i u (hu.imp_left List.mem_of_mem_erase)

theorem guar_casWrite {t : Tid} {i : Nat} {w w' : Shared Tid K V} (h0 : (w.slot i).state = 0)
    (ht : t ∈ w.busy) (h : Sets i { w.slot i with state := -1 } w w')
    (hr : w'.readers i = w.readers i) (hw : w'.writers i = t :: w.writers i)
    (hs : w'.stored i = w.stored i) : Guar t w w' := by
  refine .of_slot h (fun hv => ?_) (fun hv u hu => ?_)
    (fun u hu => ⟨by rw [hr], by rw [hw, List.count_cons_of_ne (Ne.symm hu)]⟩)
    (fun _ _ _ _ => ⟨rfl, rfl⟩) (fun x hx => by rwa [hs])
  · cases hv.slot i with
    | shared a b c d =>
      have hnil : w.readers i = [] := List.eq_nil_of_length_eq_zero (by omega)
      exact .writing t (by rw [hw, a]) (by rw [hr, hnil]) (by rw [h.self])
    | writing u a b c => omega
  · rw [hr, hw, List.mem_cons] at hu
    rcases hu with hu | rfl | hu
    · exact hv.busy i u (Or.inl hu)
    · exact ht
    · exact hv.busy i u (Or.inr hu)

/-- The writer of a slot may change its pair: nobody else holds a guard of it. -/
theorem guar_write {t : Tid} {i : Nat} {s : Slot K V} {w w' : Shared Tid K V}
    (ht : t ∈ w.writers i) (h : Sets i s w w') (hst : s.state = (w.slot i).state)
    (hr : w'.readers i = w.readers i) (hw : w'.writers i = w.writers i)
    (hs : w'.stored i = w.stored i) : Guar t w w' := by
  refine .of_slot h (fun hv => ?_) (fun hv u hu => by rw [hr, hw] at hu; exact hv.busy i u hu)
    (fun u _ => ⟨by rw [hr], by rw [hw]⟩) (fun hv u hu hm => ?_) (fun x hx => by rwa [hs])
  · obtain ⟨a, b, c⟩ := (hv.slot i).of_writer ht
    exact .writing t (by rw [hw, a]) (by rw [hr, b]) (by rw [h.self, hst, c])
  · obtain ⟨a, b, -⟩ := (hv.slot i).of_writer ht
    rw [a, b, List.mem_singleton] at hm
    rcases hm with hm | hm
    · cases hm
    · exact absurd hm hu

theorem guar_release {t : Tid} {i : Nat} {pair : K × V} {w w' : Shared Tid K V}
    (ht : t ∈ w.writers i) (hk : (w.slot i).key = pair.1) (hv' : (w.slot i).value = pair.2)
    (h : Sets i { w.slot i with state := 0 } w w') (hr : w'.readers i = w.readers i)
    (hw : w'.writers i = (w.writers i).erase t) (hs : w'.stored i = pair :: w.stored i) :
    Guar t w w' := by
  refine .of_slot h (fun hv => ?_) (fun hv u hu => ?_)
    (fun u hu => ⟨by rw [hr], by rw [hw, List.count_erase_of_ne hu]⟩)
    (fun _ _ _ _ => ⟨rfl, rfl⟩) (fun x hx => by rw [hs]; exact List.mem_cons_of_mem _ hx)
  · obtain ⟨a, b, -⟩ := (hv.slot i).of_writer ht
    refine .shared (by rw [hw, a, List.erase_cons_head]) (by rw [h.self, hr, b]; rfl)
      (by rw [hr, b]; simp [isizeMax]) (Or.inr ?_)
    rw [h.self, hs]
    show ((w.slot i).key, (w.slot i).value) ∈ _
    rw [hk, hv']
    exact List.mem_cons_self
  · rw [hr, hw] at hu
    exact hv.busy i u (hu.imp_right List.mem_of_mem_erase)

/-- Entering a get or an insert. -/
theorem guar_enter {t : Tid} {w : Shared Tid K V} :
    Guar t w { w with busy := t :: w.busy } := by
  refine ⟨fun hv => ⟨fun i => (hv.slot i).congr rfl rfl rfl rfl,
      fun i u hu => List.mem_cons_of_mem _ (hv.busy i u hu)⟩,
    fun _ u hu => ⟨?_, fun _ => rfl, fun _ => rfl, fun _ _ => ⟨rfl, rfl⟩, fun _ => rfl,
      fun _ _ _ h => h⟩⟩
  exact List.count_cons_of_ne (Ne.symm hu)

/-- Emptying the table while nobody is inside it. -/
theorem guar_empty {t : Tid} {w : Shared Tid K V} {c : LockFreeCache K V} (hb : w.busy = [])
    (hc : Inv w → c.Empty) :
    Guar t w { w with cache := c, stored := fun _ => [], busy := t :: w.busy } := by
  refine ⟨fun hv => ⟨fun i => ?_, fun i u hu => ?_⟩, fun hv u hu => ⟨?_, fun _ => rfl,
    fun _ => rfl, fun i h => ?_, fun h => ?_, fun h => ?_⟩⟩
  · have hnr : w.readers i = [] := List.eq_nil_iff_forall_not_mem.mpr fun u hu => by
      have := hv.busy i u (Or.inl hu)
      rw [hb] at this
      cases this
    have hnw : w.writers i = [] := List.eq_nil_iff_forall_not_mem.mpr fun u hu => by
      have := hv.busy i u (Or.inr hu)
      rw [hb] at this
      cases this
    have he : c.entries.get i = Slot.new := hc hv i
    refine .shared hnw ?_ ?_ (Or.inl ?_)
    · show (c.entries.get i).state = _
      rw [he, hnr]
      rfl
    · show ((w.readers i).length : Int) ≤ _
      rw [hnr]
      simp [isizeMax]
    · show (c.entries.get i).key = _ ∧ (c.entries.get i).value = _
      rw [he]
      exact ⟨rfl, rfl⟩
  · exact List.mem_cons_of_mem _ (hv.busy i u hu)
  · exact List.count_cons_of_ne (Ne.symm hu)
  · have := hv.busy i u h
    rw [hb] at this
    cases this
  · rw [hb] at h
    cases h
  · rw [hb] at h
    cases h

/-! ## The programs -/

/-- The logic of thread `t`. -/
def logic (t : Tid) : Logic (sig K V) (Shared Tid K V) where
  exec := exec t
  rely w w' := Inv w' ∧ Keeps t w w'
  guar := Guar t
  safe _ _ := True
  stops e _ := e ≠ .fault
  fits _ := True

/-- Thread `t` is inside one call, reads slot `r` and writes slot `x`, if any. -/
structure Holds (t : Tid) (r x : Option Nat) (w : Shared Tid K V) : Prop where
  busy : w.busy.count t = 1
  readers : ∀ j, (w.readers j).count t = if r = some j then 1 else 0
  writers : ∀ j, (w.writers j).count t = if x = some j then 1 else 0

section
omit [Inhabited K] [Inhabited V]

theorem Holds.keep {t : Tid} {r x : Option Nat} {w w' : Shared Tid K V} (h : Holds t r x w)
    (hk : Keeps t w w') : Holds t r x w' :=
  ⟨hk.busy.trans h.busy, fun j => (hk.readers j).trans (h.readers j),
    fun j => (hk.writers j).trans (h.writers j)⟩

theorem Holds.mem_busy {t : Tid} {r x : Option Nat} {w : Shared Tid K V} (h : Holds t r x w) :
    t ∈ w.busy := List.count_pos_iff.mp (by rw [h.busy]; omega)

theorem Holds.mem_readers {t : Tid} {i : Nat} {x : Option Nat} {w : Shared Tid K V}
    (h : Holds t (some i) x w) : t ∈ w.readers i :=
  List.count_pos_iff.mp (by rw [h.readers i, if_pos rfl]; omega)

theorem Holds.mem_writers {t : Tid} {i : Nat} {r : Option Nat} {w : Shared Tid K V}
    (h : Holds t r (some i) w) : t ∈ w.writers i :=
  List.count_pos_iff.mp (by rw [h.writers i, if_pos rfl]; omega)

/-- Taking, or giving back, a guard of slot `i`. -/
theorem Holds.step {t : Tid} {i : Nat} {s : Slot K V} {r r' x x' : Option Nat}
    {w w' : Shared Tid K V} (h : Holds t r x w) (hs : Sets i s w w')
    (hr : (w'.readers i).count t = if r' = some i then 1 else 0)
    (hx : (w'.writers i).count t = if x' = some i then 1 else 0)
    (hne : ∀ j, j ≠ i → (r' = some j ↔ r = some j) ∧ (x' = some j ↔ x = some j)) :
    Holds t r' x' w' := by
  refine ⟨by rw [hs.busy, h.busy], fun j => ?_, fun j => ?_⟩
  all_goals by_cases hj : j = i
  · subst hj; exact hr
  · rw [hs.readers j hj, h.readers j]
    exact if_congr (hne j hj).1.symm rfl rfl
  · subst hj; exact hx
  · rw [hs.writers j hj, h.writers j]
    exact if_congr (hne j hj).2.symm rfl rfl

theorem slotIdx_keep {t : Tid} {w w' : Shared Tid K V} (hk : Keeps t w w') (hb : t ∈ w.busy)
    (hash : UInt64) : w'.cache.slotIdx hash = w.cache.slotIdx hash := by
  unfold LockFreeCache.slotIdx
  rw [hk.table hb]

end

/-- An operation that only looks. -/
theorem wp_look {t : Tid} {o : Op K V} {f : Shared Tid K V → (sig K V).Res o}
    {Q : (sig K V).Res o → Shared Tid K V → Prop} {w : Shared Tid K V}
    (he : ∀ w, exec t o w = .ok (f w, w)) (h : ∀ w', Inv w' → Keeps t w w' → Q (f w') w') :
    wp (logic t) (Prog.op (S := sig K V) o) Q w :=
  fun w' hr => .of_ok trivial (he w') fun _ => ⟨.same w'.weak, h w' hr.1 hr.2⟩

/-- An operation that writes slot `i`. -/
theorem wp_write {t : Tid} {o : Op K V} {Q : (sig K V).Res o → Shared Tid K V → Prop}
    {w : Shared Tid K V} {r : (sig K V).Res o} {f : Shared Tid K V → Shared Tid K V}
    (he : ∀ w, exec t o w = .ok (r, f w))
    (h : ∀ w', Inv w' → Keeps t w w' → Guar t w' (f w') ∧ Q r (f w')) :
    wp (logic t) (Prog.op (S := sig K V) o) Q w :=
  fun w' hr => .of_ok trivial (he w') fun _ => h w' hr.1 hr.2

theorem wp_slot {t : Tid} {hash : UInt64} {Q : Nat → Shared Tid K V → Prop} {w : Shared Tid K V}
    (h : ∀ w', Keeps t w w' → Q (w'.cache.slotIdx hash) w') :
    wp (logic t) (Prog.op (S := sig K V) (.slot hash)) Q w := by
  rintro w' ⟨-, hk⟩
  refine ⟨trivial, ?_⟩
  simp only [logic, exec]
  by_cases hi : w'.cache.slotIdx hash < w'.cache.entries.len
  · rw [if_pos hi]
    exact fun _ => ⟨.same w'.weak, h w' hk⟩
  · rw [if_neg hi]
    simp

/-- `read` takes a read guard of slot `i`. -/
theorem wp_read {t : Tid} {i : Nat} {hash : UInt64} (n : Nat) (w : Shared Tid K V)
    (h : Holds t none none w) (hi : w.cache.slotIdx hash = i) :
    wp (logic t) (read i n) (fun _ w' => Holds t (some i) none w' ∧ w'.cache.slotIdx hash = i) w := by
  induction n generalizing w with
  | zero => exact fun _ _ => .of_error trivial rfl (by simp [logic])
  | succ n ih =>
    unfold read
    refine wp_seq (P := fun _ w' => Holds t none none w' ∧ w'.cache.slotIdx hash = i)
      (wp_look (o := .load i) (f := fun w => (w.slot i).state) (fun _ => rfl) fun w' _ hk =>
        ⟨h.keep hk, (slotIdx_keep hk h.mem_busy hash).trans hi⟩) fun s w1 ⟨h1, hi1⟩ => ?_
    refine wp_ite _ (fun _ => ih w1 h1 hi1) fun h0 => ?_
    refine wp_ite _ (fun _ => fun _ _ => .of_error trivial rfl (by simp [logic])) fun hmax => ?_
    refine wp_seq (P := fun ok w' => Holds t (if ok then some i else none) none w' ∧
      w'.cache.slotIdx hash = i) ?_ fun ok w2 ⟨h2, hi2⟩ => ?_
    · rintro w' ⟨-, hk⟩
      have h' := h1.keep hk
      have hi' : w'.cache.slotIdx hash = i := (slotIdx_keep hk h1.mem_busy hash).trans hi1
      refine ⟨trivial, ?_⟩
      simp only [logic, exec]
      by_cases hc : (w'.slot i).state = s ∧ w'.weak 0 = false
      · rw [if_pos hc]
        obtain ⟨rfl, -⟩ := hc
        have hs : Sets i { w'.slot i with state := (w'.slot i).state + 1 } w'
            { w' with
              cache := w'.cacheSet i { w'.slot i with state := (w'.slot i).state + 1 }
              weak := fun i => w'.weak (i + 1)
              readers := Function.update w'.readers i (t :: w'.readers i) } :=
          ⟨rfl, rfl, fun j hj => Function.update_of_ne hj _ _, fun _ _ => rfl, fun _ _ => rfl⟩
        have hr := Function.update_self i (t :: w'.readers i) w'.readers
        refine fun _ => ⟨guar_casRead h0 hmax h'.mem_busy hs hr rfl rfl, ?_, hi'⟩
        refine h'.step hs ((congrArg (List.count t) hr).trans (by
          rw [List.count_cons_self, h'.readers i]; simp)) (h'.writers i) fun j hj => ⟨?_, Iff.rfl⟩
        simp only [if_true, Option.some.injEq, reduceCtorEq, iff_false]
        exact Ne.symm hj
      · rw [if_neg hc]
        exact fun _ => ⟨.same _, ⟨h'.busy, h'.readers, h'.writers⟩, hi'⟩
    · refine wp_ite _ (fun hok => ?_) fun hok => ?_
      · rw [if_pos hok] at h2
        exact ⟨h2, hi2⟩
      · rw [if_neg hok] at h2
        exact ih w2 h2 hi2

/-- Dropping the read guard of slot `i`. -/
theorem wp_fetchSub {t : Tid} {i : Nat} {w : Shared Tid K V} {P : Shared Tid K V → Prop}
    (h : Holds t (some i) none w)
    (hP : ∀ w' w'', Keeps t w w' → w''.stored = w'.stored →
      w''.cache.sizeExp = w'.cache.sizeExp → P w'') :
    wp (logic t) (Prog.op (S := sig K V) (.fetchSub i))
      (fun _ w' => Holds t none none w' ∧ P w') w := by
  refine wp_write (fun _ => rfl) fun w' _ hk => ?_
  have h' := h.keep hk
  have hs : Sets i { w'.slot i with state := (w'.slot i).state - 1 } w'
      { w' with
        cache := w'.cacheSet i { w'.slot i with state := (w'.slot i).state - 1 }
        readers := Function.update w'.readers i ((w'.readers i).erase t) } :=
    ⟨rfl, rfl, fun j hj => Function.update_of_ne hj _ _, fun _ _ => rfl, fun _ _ => rfl⟩
  have hr := Function.update_self i ((w'.readers i).erase t) w'.readers
  refine ⟨guar_fetchSub h'.mem_readers hs hr rfl rfl, ?_, hP w' _ hk rfl rfl⟩
  refine h'.step hs ((congrArg (List.count t) hr).trans (by
    rw [List.count_erase_self, h'.readers i]; simp)) (h'.writers i) fun j hj => ⟨?_, Iff.rfl⟩
  simp only [Option.some.injEq, reduceCtorEq, false_iff]
  exact Ne.symm hj

/-- What `get(hash, q)` may answer. -/
def Answer (hash : UInt64) (q : K) (r : Ret V) (w : Shared Tid K V) : Prop :=
  ∀ v, r = .value v → q ≠ default → v = default ∨ (q, v) ∈ w.stored (w.cache.slotIdx hash)

theorem wp_get [DecidableEq K] {t : Tid} {hash : UInt64} {q : K} (n : Nat) (w : Shared Tid K V)
    (h : Holds t none none w) :
    wp (logic t) (get hash q n) (fun r w' => Holds t none none w' ∧ Answer hash q r w') w := by
  unfold get
  refine wp_seq (P := fun i w' => Holds t none none w' ∧ w'.cache.slotIdx hash = i)
    (wp_slot fun w' hk => ⟨h.keep hk, rfl⟩) fun i w1 ⟨h1, hi1⟩ => ?_
  refine wp_seq (wp_read n w1 h1 hi1) fun _ w2 ⟨h2, hi2⟩ => ?_
  -- under the read guard the pair does not change between the two field reads
  refine wp_seq (P := fun k w' => Holds t (some i) none w' ∧ w'.cache.slotIdx hash = i ∧
    (w'.slot i).key = k) (wp_look (o := .readKey i) (f := fun w => (w.slot i).key)
      (fun _ => rfl) fun w' _ hk =>
      ⟨h2.keep hk, (slotIdx_keep hk h2.mem_busy hash).trans hi2, rfl⟩)
    fun k w3 ⟨h3, hi3, hk3⟩ => ?_
  refine wp_ite _ (fun hkq => ?_) fun _ => ?_
  · subst hkq
    refine wp_seq (P := fun v w' => Holds t (some i) none w' ∧ w'.cache.slotIdx hash = i ∧
      (k ≠ default → v = default ∨ (k, v) ∈ w'.stored i))
      (wp_look (o := .readValue i) (f := fun w => (w.slot i).value) (fun _ => rfl)
        fun w' hinv hk => ?_)
      fun v w4 ⟨h4, hi4, hv4⟩ => ?_
    · refine ⟨h3.keep hk, (slotIdx_keep hk h3.mem_busy hash).trans hi3, fun hne => Or.inr ?_⟩
      have hkey : (w'.slot i).key = k := (hk.pair i (Or.inl h3.mem_readers)).1.trans hk3
      obtain ⟨-, -, -, hw⟩ := (hinv.slot i).of_reader (h3.keep hk).mem_readers
      rcases hw with ⟨h0, -⟩ | hm
      · exact absurd (hkey.symm.trans h0) hne
      · rwa [hkey] at hm
    · refine wp_seq (wp_fetchSub (P := Answer hash k (.value v)) h4
        fun w' w'' hk hs he x hx hne => ?_) fun _ w5 h5 => h5
      obtain rfl : v = x := by injection hx
      have hidx : w''.cache.slotIdx hash = i := by
        unfold LockFreeCache.slotIdx at hi4 ⊢
        rw [he, hk.table h4.mem_busy, hi4]
      rw [hidx, hs]
      exact (hv4 hne).imp_right (hk.stored h4.mem_busy i _)
  · refine wp_seq (wp_fetchSub (P := Answer hash q (.value default)) h3
      fun w' w'' _ _ _ x hx _ => ?_) fun _ w5 h5 => h5
    injection hx with hx
    exact Or.inl hx.symm

theorem wp_insert {t : Tid} {hash : UInt64} {key : K} {value : V} (w : Shared Tid K V)
    (h : Holds t none none w) :
    wp (logic t) (insert hash key value) (fun _ w' => Holds t none none w') w := by
  unfold insert
  refine wp_seq (P := fun _ w' => Holds t none none w') (wp_slot fun w' hk => h.keep hk)
    fun i w1 h1 => ?_
  refine wp_seq (P := fun _ w' => Holds t none none w')
    (wp_look (o := .load i) (f := fun w => (w.slot i).state) (fun _ => rfl)
      fun w' _ hk => h1.keep hk)
    fun s w2 h2 => ?_
  refine wp_ite _ (fun _ => h2) fun _ => ?_
  refine wp_seq (P := fun ok w' => Holds t none (if ok then some i else none) w') ?_
    fun ok w3 h3 => ?_
  · rintro w' ⟨-, hk⟩
    have h' := h2.keep hk
    refine ⟨trivial, ?_⟩
    simp only [logic, exec]
    by_cases hc : (w'.slot i).state = 0
    · rw [if_pos hc]
      have hs : Sets i { w'.slot i with state := -1 } w'
          { w' with
            cache := w'.cacheSet i { w'.slot i with state := -1 }
            writers := Function.update w'.writers i (t :: w'.writers i) } :=
        ⟨rfl, rfl, fun _ _ => rfl, fun j hj => Function.update_of_ne hj _ _, fun _ _ => rfl⟩
      have hr := Function.update_self i (t :: w'.writers i) w'.writers
      refine fun _ => ⟨guar_casWrite hc h'.mem_busy hs rfl hr rfl, ?_⟩
      refine h'.step hs (h'.readers i) ((congrArg (List.count t) hr).trans (by
        rw [List.count_cons_self, h'.writers i]; simp)) fun j hj => ⟨Iff.rfl, ?_⟩
      simp only [if_true, Option.some.injEq, reduceCtorEq, iff_false]
      exact Ne.symm hj
    · rw [if_neg hc]
      exact fun _ => ⟨.same w'.weak, h'⟩
  refine wp_ite _ (fun hok => ?_) fun hok => ?_
  · rw [if_pos hok] at h3
    refine wp_seq (P := fun _ w' => Holds t none (some i) w' ∧ (w'.slot i).key = key)
      (wp_write (fun _ => rfl) fun w' _ hk => ?_) fun _ w4 ⟨h4, hk4⟩ => ?_
    · have hs : Sets i { w'.slot i with key := key } w'
          { w' with cache := w'.cacheSet i { w'.slot i with key := key } } :=
        ⟨rfl, rfl, fun _ _ => rfl, fun _ _ => rfl, fun _ _ => rfl⟩
      have h' := h3.keep hk
      exact ⟨guar_write h'.mem_writers hs rfl rfl rfl rfl, ⟨h'.busy, h'.readers, h'.writers⟩,
        by rw [hs.self]⟩
    refine wp_seq (P := fun _ w' => Holds t none (some i) w' ∧ (w'.slot i).key = key ∧
      (w'.slot i).value = value) (wp_write (fun _ => rfl) fun w' _ hk => ?_)
      fun _ w5 ⟨h5, hk5, hv5⟩ => ?_
    · have hs : Sets i { w'.slot i with value := value } w'
          { w' with cache := w'.cacheSet i { w'.slot i with value := value } } :=
        ⟨rfl, rfl, fun _ _ => rfl, fun _ _ => rfl, fun _ _ => rfl⟩
      have h' := h4.keep hk
      refine ⟨guar_write h'.mem_writers hs rfl rfl rfl rfl, ⟨h'.busy, h'.readers, h'.writers⟩, ?_,
        by rw [hs.self]⟩
      rw [hs.self]
      exact (hk.pair i (Or.inr h4.mem_writers)).1.trans hk4
    refine wp_seq (P := fun _ w' => Holds t none none w')
      (wp_write (fun _ => rfl) fun w' _ hk => ?_) fun _ w6 h6 => h6
    have h' := h5.keep hk
    obtain ⟨hk', hv'⟩ := hk.pair i (Or.inr h5.mem_writers)
    have hs : Sets i { w'.slot i with state := 0 } w'
        { w' with
          cache := w'.cacheSet i { w'.slot i with state := 0 }
          writers := Function.update w'.writers i ((w'.writers i).erase t)
          stored := Function.update w'.stored i ((key, value) :: w'.stored i) } :=
      ⟨rfl, rfl, fun _ _ => rfl, fun j hj => Function.update_of_ne hj _ _,
        fun j hj => Function.update_of_ne hj _ _⟩
    have hr := Function.update_self i ((w'.writers i).erase t) w'.writers
    refine ⟨guar_release h'.mem_writers (hk'.trans hk5) (hv'.trans hv5) hs rfl hr
      (Function.update_self i ((key, value) :: w'.stored i) w'.stored), ?_⟩
    refine h'.step hs (h'.readers i) ((congrArg (List.count t) hr).trans (by
      rw [List.count_erase_self, h'.writers i]; simp)) fun j hj => ⟨Iff.rfl, ?_⟩
    simp only [Option.some.injEq, reduceCtorEq, false_iff]
    exact Ne.symm hj
  · rw [if_neg hok] at h3
    exact h3

/-! ## All interleavings -/

def proof [DecidableEq K] :
    Proof (tables : System (sig K V) (Shared Tid K V) Tid (Call K V) (Ret V)) fun _ => True where
  inv := Inv
  rely t w w' := Inv w' ∧ Keeps t w w'
  guar := Guar
  safe _ _ _ := True
  idle t w := Inv w ∧ t ∉ w.busy
  post t c r w := Holds t none none w ∧
    match c with
    | .get hash q => Answer hash q r w
    | _ => True
  rely_refl t w h := ⟨h, .refl t w⟩
  rely_trans _ _ _ _ h1 h2 := ⟨h2.1, h1.2.trans h2.2⟩
  guar_inv _ _ _ h hg := hg.inv h
  guar_rely _ u _ _ h hg hne := ⟨hg.inv h, hg.keeps h u (Ne.symm hne)⟩
  idle_stable _ _ _ h hr := ⟨hr.1, fun hb => h.2 (hr.2.mem_busy.mp hb)⟩
  post_stable _ c _ _ _ h hr := by
    refine ⟨h.1.keep hr.2, ?_⟩
    cases c with
    | get hash q =>
      intro v hv hne
      rw [slotIdx_keep hr.2 h.1.mem_busy]
      exact (h.2 v hv hne).imp_right (hr.2.stored h.1.mem_busy _ _)
    | insert _ _ _ => trivial
    | invalidateAll => trivial
    | grow => trivial
  call t c n w hinv hidle hl _ := by
    -- a thread outside every call holds nothing
    have h0 : ∀ (c : LockFreeCache K V) (st : Nat → List (K × V)),
        Holds t none none { w with cache := c, stored := st, busy := t :: w.busy } := by
      refine fun c st => ⟨?_, fun j => ?_, fun j => ?_⟩
      · show (t :: w.busy).count t = 1
        rw [List.count_cons_self, List.count_eq_zero.mpr hidle.2]
      · exact List.count_eq_zero.mpr fun hm => hidle.2 (hinv.busy j t (Or.inl hm))
      · exact List.count_eq_zero.mpr fun hm => hidle.2 (hinv.busy j t (Or.inr hm))
    cases c with
    | get hash q => exact ⟨guar_enter, wp_get n _ (h0 _ _)⟩
    | insert hash key value =>
      exact ⟨guar_enter, wp_mono (fun _ _ h => ⟨h, trivial⟩) (wp_insert _ (h0 _ _))⟩
    | invalidateAll =>
      refine ⟨guar_empty hl fun hv => LockFreeCache.invalidateAll_empty fun i => ?_,
        h0 _ _, trivial⟩
      cases hv.slot i with
      | shared a b _ _ =>
        have hnr : w.readers i = [] := List.eq_nil_iff_forall_not_mem.mpr fun u hu => by
          have := hv.busy i u (Or.inl hu)
          rw [show w.busy = [] from hl] at this
          cases this
        rw [hnr] at b
        exact b
      | writing u a _ _ =>
        have := hv.busy i u (Or.inr (by rw [a]; exact List.mem_singleton_self u))
        rw [show w.busy = [] from hl] at this
        cases this
    | grow => exact ⟨guar_empty hl fun _ => LockFreeCache.grow_empty _, h0 _ _, trivial⟩
  leave t c r w hinv hpost _ := by
    have hb := hpost.1.busy
    have hnr : ∀ i, t ∉ w.readers i := fun i => List.count_eq_zero.mp (hpost.1.readers i)
    have hnw : ∀ i, t ∉ w.writers i := fun i => List.count_eq_zero.mp (hpost.1.writers i)
    have hinv' : Inv { w with busy := w.busy.erase t } := by
      refine ⟨fun i => (hinv.slot i).congr rfl rfl rfl rfl, fun i u hu => ?_⟩
      have hne : u ≠ t := by
        rintro rfl
        exact hu.elim (hnr i) (hnw i)
      exact (List.mem_erase_of_ne hne).mpr (hinv.busy i u hu)
    refine ⟨⟨fun _ => hinv', fun _ u hu => ⟨List.count_erase_of_ne hu, fun _ => rfl, fun _ => rfl,
      fun _ _ => ⟨rfl, rfl⟩, fun _ => rfl, fun _ _ _ h => h⟩⟩, hinv', fun hm => ?_⟩
    have : (w.busy.erase t).count t = 0 := by rw [List.count_erase_self, hb]
    exact List.count_eq_zero.mp this hm

omit [DecidableEq Tid] in
theorem inv_new (cap : UInt64) (weak : Nat → Bool) : Inv (new cap weak : Shared Tid K V) :=
  ⟨fun _ => .shared rfl rfl (by simp [new, isizeMax]) (Or.inl ⟨rfl, rfl⟩),
    fun _ _ h => by simp [new] at h⟩

end

end Tobdd.CacheThreads
