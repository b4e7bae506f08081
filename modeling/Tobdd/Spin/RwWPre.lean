import Mathlib.Data.List.Count
import Mathlib.Data.UInt
import Tobdd.Lib.Threads

/-!
# The writer-preferring lock of `spin/rw_w_pre.rs`

One word holds the number of readers (`state >> 2`) and two writer bits.  `read`,
`tryWrite` and the two guard drops are programs over the atomic accesses of that word;
`compare_exchange_weak` may fail without a reason, as `weak` says.  Each thread owns
the guards it was given, may drop them, and may send them to another thread.

For every run in which fewer than `2^62` read guards live at once, the word counts the live read
guards and says where the writer is (`Word`), and each step keeps that (`proof`).
-/

namespace Tobdd.RwWPre

open Resume

def WRITE_LOCKED : UInt64 := 1
def WRITE_PENDING : UInt64 := 2
def READER_SHIFT : UInt64 := 2
def READER_ONE : UInt64 := 4

/-- The word, which of the coming weak exchanges fail spuriously, and (for the proof only)
who owns the live read guards, and who has set `WRITE_PENDING` and not yet dropped its
write guard, with `true` once that guard exists. -/
structure Lock (Tid : Type) where
  state : UInt64
  weak : Nat → Bool
  readers : List Tid
  writers : List (Tid × Bool)

/-- The three places where the word is exchanged, with the word each of them wants to see
and `desired`, the word it writes. -/
inductive Site where
  /-- the exchange of `read`: one reader more -/
  | read
  /-- the first exchange of `try_write`: `s | WRITE_PENDING` -/
  | pending
  /-- the second one: `(s & !WRITE_PENDING) | WRITE_LOCKED` -/
  | locked

def Site.desired : Site → UInt64 → UInt64
  | .read, s => s + READER_ONE
  | .pending, s => s ||| WRITE_PENDING
  | .locked, s => (s &&& ~~~WRITE_PENDING) ||| WRITE_LOCKED

inductive Op where
  /-- `state.load` -/
  | load
  /-- `state.compare_exchange_weak(s, desired)` -/
  | exchange (site : Site) (s : UInt64)
  /-- `state.fetch_sub(READER_ONE)` -/
  | fetchSub
  /-- `state.fetch_and(!(WRITE_LOCKED | WRITE_PENDING))` -/
  | fetchAnd
  /-- the loop goes round more often than the run is followed -/
  | spinLoop

/-- An exchange answers whether it succeeded, and the word it found. -/
def sig : Sig where
  Op := Op
  Res
    | .load => UInt64
    | .exchange _ _ => Bool × UInt64
    | .fetchSub => Unit
    | .fetchAnd => Unit
    | .spinLoop => Empty

/-! ## The code -/

def spinLoop {α : Type} : Prog sig α := .step .spinLoop Empty.elim

/-- `SpinRwLock::read`. -/
def read : Nat → Prog sig Bool
  | 0 => spinLoop
  | n + 1 => do
    let s : UInt64 ← Prog.op (S := sig) .load
    -- a writer holds the lock or waits for it
    if s &&& (WRITE_LOCKED ||| WRITE_PENDING) ≠ 0 then
      read n
    else do
      let r : Bool × UInt64 ← Prog.op (S := sig) (.exchange .read s)
      if r.1 then return true else read n

/-- The second loop of `try_write`: wait until the readers are gone, then pending → locked. -/
def awaitReaders : Nat → Prog sig Bool
  | 0 => spinLoop
  | n + 1 => do
    let s : UInt64 ← Prog.op (S := sig) .load
    if s >>> READER_SHIFT = 0 then do
      let r : Bool × UInt64 ← Prog.op (S := sig) (.exchange .locked s)
      if r.1 then return true else awaitReaders n
    else
      awaitReaders n

/-- The first loop of `try_write`, with the word it has seen last. -/
def takePending : Nat → UInt64 → Prog sig Bool
  | 0, _ => spinLoop
  | n + 1, s =>
    -- one writer only: somebody else has the place
    if s &&& (WRITE_LOCKED ||| WRITE_PENDING) ≠ 0 then
      return false
    else do
      let r : Bool × UInt64 ← Prog.op (S := sig) (.exchange .pending s)
      if r.1 then awaitReaders n else takePending n r.2

/-- `SpinRwLock::try_write`: `true` when it returns a `WriteGuard`. -/
def tryWrite (n : Nat) : Prog sig Bool := do
  let s : UInt64 ← Prog.op (S := sig) .load
  takePending n s

/-- `Drop for ReadGuard`. -/
def dropRead : Prog sig Bool := do
  let _ : Unit ← Prog.op (S := sig) .fetchSub
  return true

/-- `Drop for WriteGuard`. -/
def dropWrite : Prog sig Bool := do
  let _ : Unit ← Prog.op (S := sig) .fetchAnd
  return true

section
variable {Tid : Type} [DecidableEq Tid]

/-- What thread `t` has when its exchange succeeds: a read guard, the place of the writer,
the write guard. -/
def Site.grant (t : Tid) : Site → Lock Tid → Lock Tid
  | .read, w => { w with readers := t :: w.readers }
  | .pending, w => { w with writers := (t, false) :: w.writers }
  | .locked, w => { w with writers := (t, true) :: w.writers.erase (t, false) }

/-- A weak exchange fails when the word is another one, or spuriously. -/
def exec (t : Tid) : (o : sig.Op) → Lock Tid → Except Stop (sig.Res o × Lock Tid)
  | .load, w => .ok (w.state, w)
  | .exchange site s, w =>
    let rest : Nat → Bool := fun i => w.weak (i + 1)
    if w.state = s ∧ w.weak 0 = false then
      .ok ((true, s), site.grant t { w with state := site.desired s, weak := rest })
    else
      .ok ((false, w.state), { w with weak := rest })
  | .fetchSub, w =>
    .ok ((), { w with state := w.state - READER_ONE, readers := w.readers.erase t })
  | .fetchAnd, w =>
    .ok ((), { w with
      state := w.state &&& ~~~(WRITE_LOCKED ||| WRITE_PENDING)
      writers := w.writers.erase (t, true) })
  | .spinLoop, _ => .error .spin

/-! ## The threads -/

/-- What a thread outside the lock's code may do next. -/
inductive Call (Tid : Type) where
  | read
  | tryWrite
  | dropRead
  | dropWrite
  /-- hand one of my read guards to `u` -/
  | sendRead (u : Tid)
  /-- hand my write guard to `u` -/
  | sendWrite (u : Tid)
  deriving DecidableEq

def locks : System sig (Lock Tid) Tid (Call Tid) Bool where
  exec := exec
  code _ c n :=
    match c with
    | .read => read n
    | .tryWrite => tryWrite n
    | .dropRead => dropRead
    | .dropWrite => dropWrite
    | .sendRead _ | .sendWrite _ => return true
  legal t c w :=
    match c with
    | .read | .tryWrite => True
    | .dropRead | .sendRead _ => t ∈ w.readers
    | .dropWrite | .sendWrite _ => (t, true) ∈ w.writers
  enter t c w :=
    match c with
    | .sendRead u => { w with readers := u :: w.readers.erase t }
    | .sendWrite u => { w with writers := (u, true) :: w.writers.erase (t, true) }
    | _ => w
  leave _ _ _ w := w

/-- `SpinRwLock::new`. -/
def new (weak : Nat → Bool) : Lock Tid := ⟨0, weak, [], []⟩

/-- Fewer than `2^62` read guards. -/
def Fits (w : Lock Tid) : Prop := w.readers.length < 2 ^ 62

/-! ## The word -/

theorem writerBits_eq_zero (s : UInt64) :
    s &&& (WRITE_LOCKED ||| WRITE_PENDING) = 0 ↔ s.toNat % 4 = 0 := by
  have h : (s &&& (WRITE_LOCKED ||| WRITE_PENDING)).toNat = s.toNat % 4 := by
    rw [UInt64.toNat_and, show (WRITE_LOCKED ||| WRITE_PENDING).toNat = 2 ^ 2 - 1 from rfl,
      Nat.and_two_pow_sub_one_eq_mod]
  rw [← h, ← UInt64.toNat_inj]
  rfl

theorem addReader_toNat (s : UInt64) (h : s.toNat + 4 < 2 ^ 64) :
    (s + READER_ONE).toNat = s.toNat + 4 := by
  rw [UInt64.toNat_add, show READER_ONE.toNat = 4 from rfl, Nat.mod_eq_of_lt h]

theorem subReader_toNat (s : UInt64) (h : 4 ≤ s.toNat) : (s - READER_ONE).toNat = s.toNat - 4 :=
  UInt64.toNat_sub_of_le s READER_ONE (UInt64.le_iff_toNat_le.mpr h)

theorem setPending_toNat (s : UInt64) (h : s.toNat % 4 = 0) :
    (s ||| WRITE_PENDING).toNat = s.toNat + 2 := by
  rw [UInt64.toNat_or, show WRITE_PENDING.toNat = 2 from rfl]
  obtain ⟨k, hk⟩ : ∃ k, s.toNat = 2 ^ 2 * k := ⟨s.toNat / 4, by omega⟩
  rw [hk, ← Nat.two_pow_add_eq_or_of_lt (show 2 < 2 ^ 2 by omega)]

theorem shift_toNat (s : UInt64) : (s >>> READER_SHIFT).toNat = s.toNat / 4 := by
  rw [UInt64.toNat_shiftRight, show READER_SHIFT.toNat % 64 = 2 from rfl,
    Nat.shiftRight_eq_div_pow]

theorem shift_eq_zero (s : UInt64) : s >>> READER_SHIFT = 0 ↔ s.toNat / 4 = 0 := by
  rw [← shift_toNat, ← UInt64.toNat_inj]
  rfl

/-! ## The invariant -/

/-- The word says how many readers there are and where the writer is. -/
inductive Word (w : Lock Tid) : Prop
  | free : w.writers = [] → w.state.toNat = 4 * w.readers.length → Word w
  | pending (t : Tid) : w.writers = [(t, false)] → w.state.toNat = 4 * w.readers.length + 2 → Word w
  | locked (t : Tid) : w.writers = [(t, true)] → w.readers = [] → w.state.toNat = 1 → Word w

structure Inv (w : Lock Tid) : Prop where
  fits : Fits w
  word : Word w

/-- What thread `t` keeps while others act: its guards, and its place as the writer. -/
structure Keeps (t : Tid) (w w' : Lock Tid) : Prop where
  readers : w.readers.count t ≤ w'.readers.count t
  writers : ∀ b, (t, b) ∈ w.writers → (t, b) ∈ w'.writers

/-- What a step of thread `t` guarantees; no read guard appears while there is a writer. -/
structure Guar (t : Tid) (w w' : Lock Tid) : Prop where
  inv : Inv w → Inv w'
  keeps : ∀ u, u ≠ t → Keeps u w w'
  noReader : Inv w → w.writers ≠ [] → w'.readers.length ≤ w.readers.length

theorem Keeps.refl (t : Tid) (w : Lock Tid) : Keeps t w w := ⟨Nat.le_refl _, fun _ h => h⟩

theorem Keeps.trans {t : Tid} {w1 w2 w3 : Lock Tid} (h1 : Keeps t w1 w2) (h2 : Keeps t w2 w3) :
    Keeps t w1 w3 :=
  ⟨Nat.le_trans h1.readers h2.readers, fun b h => h2.writers b (h1.writers b h)⟩

theorem Keeps.mem {t : Tid} {w w' : Lock Tid} (h : Keeps t w w') (ht : t ∈ w.readers) :
    t ∈ w'.readers :=
  List.count_pos_iff.mp (Nat.lt_of_lt_of_le (List.count_pos_iff.mpr ht) h.readers)

/-- A step that changes neither the word nor the guards. -/
theorem Guar.same {t : Tid} {w w' : Lock Tid} (hs : w'.state = w.state)
    (hr : w'.readers = w.readers) (hw : w'.writers = w.writers) : Guar t w w' := by
  refine ⟨fun h => ?_, fun u _ => ⟨by rw [hr], fun b => by rw [hw]; exact id⟩, fun _ _ => by rw [hr]⟩
  refine ⟨by unfold Fits; rw [hr]; exact h.fits, ?_⟩
  cases h.word with
  | free h1 h2 => exact .free (by rw [hw, h1]) (by rw [hs, hr, h2])
  | pending t h1 h2 => exact .pending t (by rw [hw, h1]) (by rw [hs, hr, h2])
  | locked t h1 h2 h3 => exact .locked t (by rw [hw, h1]) (by rw [hr, h2]) (by rw [hs, h3])

omit [DecidableEq Tid] in
/-- The word has no writer bit exactly when there is no writer. -/
theorem Inv.free_iff {w : Lock Tid} (h : Inv w) : w.state.toNat % 4 = 0 ↔ w.writers = [] := by
  cases h.word with
  | free h1 h2 => rw [h1, h2]; simp
  | pending t h1 h2 => rw [h1, h2]; simp
  | locked t h1 h2 h3 => rw [h1, h3]; simp

omit [DecidableEq Tid] in
theorem Inv.count {w : Lock Tid} (h : Inv w) : w.state.toNat / 4 = w.readers.length := by
  cases h.word with
  | free _ h2 => omega
  | pending _ _ h2 => omega
  | locked _ _ h2 h3 => rw [h2, h3]; rfl

omit [DecidableEq Tid] in
theorem Inv.state_free {w : Lock Tid} (h : Inv w) (hw : w.writers = []) :
    w.state.toNat = 4 * w.readers.length := by
  have h1 := h.free_iff.mpr hw
  have h2 := h.count
  omega

omit [DecidableEq Tid] in
theorem mem_writers_pending {w : Lock Tid} {t : Tid} (h : Inv w) (ht : (t, false) ∈ w.writers) :
    w.writers = [(t, false)] ∧ w.state.toNat = 4 * w.readers.length + 2 := by
  cases h.word with
  | free h1 h2 => rw [h1] at ht; cases ht
  | pending u h1 h2 =>
    rw [h1, List.mem_singleton, Prod.mk.injEq] at ht
    rw [ht.1]
    exact ⟨h1, h2⟩
  | locked u h1 h2 h3 => rw [h1] at ht; simp at ht

omit [DecidableEq Tid] in
theorem mem_writers_locked {w : Lock Tid} {t : Tid} (h : Inv w) (ht : (t, true) ∈ w.writers) :
    w.writers = [(t, true)] ∧ w.readers = [] ∧ w.state.toNat = 1 := by
  cases h.word with
  | free h1 h2 => rw [h1] at ht; cases ht
  | pending u h1 h2 => rw [h1] at ht; simp at ht
  | locked u h1 h2 h3 =>
    rw [h1, List.mem_singleton, Prod.mk.injEq] at ht
    rw [ht.1]
    exact ⟨h1, h2, h3⟩

/-! ## Each step keeps it -/

theorem guar_casRead {t : Tid} {w w' : Lock Tid} (h0 : w.state.toNat % 4 = 0)
    (hs : w'.state = w.state + READER_ONE) (hr : w'.readers = t :: w.readers)
    (hw : w'.writers = w.writers) (hf : Fits w') : Guar t w w' := by
  refine ⟨fun h => ⟨hf, ?_⟩, fun u hu => ⟨?_, fun _ hm => by rwa [hw]⟩, fun h hne => ?_⟩
  · have hfree := h.free_iff.mp h0
    have h4 := h.state_free hfree
    have hlt : w'.readers.length < 2 ^ 62 := hf
    rw [hr, List.length_cons] at hlt
    refine .free (by rw [hw, hfree]) ?_
    rw [hs, hr, addReader_toNat _ (by omega), List.length_cons]
    omega
  · rw [hr, List.count_cons_of_ne (Ne.symm hu)]
  · exact absurd (h.free_iff.mp h0) hne

theorem guar_casPending {t : Tid} {w w' : Lock Tid} (h0 : w.state.toNat % 4 = 0)
    (hs : w'.state = w.state ||| WRITE_PENDING) (hr : w'.readers = w.readers)
    (hw : w'.writers = (t, false) :: w.writers) : Guar t w w' := by
  refine ⟨fun h => ⟨by unfold Fits; rw [hr]; exact h.fits, ?_⟩,
    fun u _ => ⟨by rw [hr], fun _ hm => by rw [hw]; exact List.mem_cons_of_mem _ hm⟩,
    fun _ _ => by rw [hr]⟩
  have hfree := h.free_iff.mp h0
  refine .pending t (by rw [hw, hfree]) ?_
  rw [hs, hr, setPending_toNat _ h0, h.state_free hfree]

theorem guar_casLocked {t : Tid} {w w' : Lock Tid} (hinv : Inv w) (ht : (t, false) ∈ w.writers)
    (h0 : w.state >>> READER_SHIFT = 0)
    (hs : w'.state = (w.state &&& ~~~WRITE_PENDING) ||| WRITE_LOCKED)
    (hr : w'.readers = w.readers) (hw : w'.writers = (t, true) :: w.writers.erase (t, false)) :
    Guar t w w' := by
  obtain ⟨hws, h4⟩ := mem_writers_pending hinv ht
  have hlen : w.readers.length = 0 := by
    have := (shift_eq_zero _).mp h0
    omega
  have hnil : w.readers = [] := List.eq_nil_of_length_eq_zero hlen
  have hstate : w.state = 2 := by
    rw [← UInt64.toNat_inj, h4, hlen]
    rfl
  rw [hws, List.erase_cons_head] at hw
  refine ⟨fun _ => ⟨by unfold Fits; rw [hr]; exact hinv.fits, ?_⟩,
    fun u hu => ⟨by rw [hr], fun b hm => ?_⟩, fun _ _ => by rw [hr]⟩
  · refine .locked t hw (by rw [hr, hnil]) ?_
    rw [hs, hstate]
    rfl
  · rw [hws, List.mem_singleton, Prod.mk.injEq] at hm
    exact absurd hm.1 hu

theorem guar_fetchSub {t : Tid} {w w' : Lock Tid} (ht : t ∈ w.readers)
    (hs : w'.state = w.state - READER_ONE) (hr : w'.readers = w.readers.erase t)
    (hw : w'.writers = w.writers) : Guar t w w' := by
  have hlen : w'.readers.length = w.readers.length - 1 := by rw [hr, List.length_erase_of_mem ht]
  have hpos : 0 < w.readers.length := List.length_pos_of_mem ht
  refine ⟨fun h => ⟨?_, ?_⟩, fun u hu => ⟨?_, fun _ hm => by rwa [hw]⟩, fun _ _ => by omega⟩
  · have : w.readers.length < 2 ^ 62 := h.fits
    show w'.readers.length < 2 ^ 62
    omega
  · cases h.word with
    | free h1 h2 =>
      refine .free (by rw [hw, h1]) ?_
      rw [hs, subReader_toNat _ (by omega)]
      omega
    | pending u h1 h2 =>
      refine .pending u (by rw [hw, h1]) ?_
      rw [hs, subReader_toNat _ (by omega)]
      omega
    | locked u h1 h2 h3 => rw [h2] at ht; cases ht
  · rw [hr, List.count_erase_of_ne hu]

theorem guar_fetchAnd {t : Tid} {w w' : Lock Tid} (hinv : Inv w) (ht : (t, true) ∈ w.writers)
    (hs : w'.state = w.state &&& ~~~(WRITE_LOCKED ||| WRITE_PENDING))
    (hr : w'.readers = w.readers) (hw : w'.writers = w.writers.erase (t, true)) : Guar t w w' := by
  obtain ⟨hws, hnil, h1⟩ := mem_writers_locked hinv ht
  have hstate : w.state = 1 := by
    rw [← UInt64.toNat_inj, h1]
    rfl
  rw [hws, List.erase_cons_head] at hw
  refine ⟨fun _ => ⟨by unfold Fits; rw [hr]; exact hinv.fits, ?_⟩,
    fun u hu => ⟨by rw [hr], fun b hm => ?_⟩, fun _ _ => by rw [hr]⟩
  · refine .free hw ?_
    rw [hs, hstate, hr, hnil, List.length_nil]
    decide
  · rw [hws, List.mem_singleton, Prod.mk.injEq] at hm
    exact absurd hm.1 hu

/-- Sending a guard changes its owner only. -/
theorem guar_sendRead {t u : Tid} {w w' : Lock Tid} (ht : t ∈ w.readers)
    (hs : w'.state = w.state) (hr : w'.readers = u :: w.readers.erase t)
    (hw : w'.writers = w.writers) : Guar t w w' := by
  have hlen : w'.readers.length = w.readers.length := by
    have := List.length_pos_of_mem ht
    rw [hr, List.length_cons, List.length_erase_of_mem ht]
    omega
  refine ⟨fun h => ⟨by unfold Fits; rw [hlen]; exact h.fits, ?_⟩,
    fun v hv => ⟨?_, fun _ hm => by rwa [hw]⟩, fun _ _ => by omega⟩
  · cases h.word with
    | free h1 h2 => exact .free (by rw [hw, h1]) (by rw [hs, hlen, h2])
    | pending v h1 h2 => exact .pending v (by rw [hw, h1]) (by rw [hs, hlen, h2])
    | locked v h1 h2 h3 => rw [h2] at ht; cases ht
  · rw [hr, List.count_cons, List.count_erase_of_ne hv]
    omega

theorem guar_sendWrite {t u : Tid} {w w' : Lock Tid} (hinv : Inv w) (ht : (t, true) ∈ w.writers)
    (hs : w'.state = w.state) (hr : w'.readers = w.readers)
    (hw : w'.writers = (u, true) :: w.writers.erase (t, true)) : Guar t w w' := by
  obtain ⟨hws, hnil, h1⟩ := mem_writers_locked hinv ht
  rw [hws, List.erase_cons_head] at hw
  refine ⟨fun _ => ⟨by unfold Fits; rw [hr]; exact hinv.fits, ?_⟩,
    fun v hv => ⟨by rw [hr], fun b hm => ?_⟩, fun _ _ => by rw [hr]⟩
  · exact .locked u hw (by rw [hr, hnil]) (by rw [hs, h1])
  · rw [hws, List.mem_singleton, Prod.mk.injEq] at hm
    exact absurd hm.1 hv

/-! ## The programs -/

/-- The logic of thread `t`. -/
def logic (t : Tid) : Logic sig (Lock Tid) where
  exec := exec t
  rely w w' := Inv w' ∧ Keeps t w w'
  guar := Guar t
  safe _ _ := True
  stops e _ := e ≠ .fault
  fits := Fits

theorem wp_load {t : Tid} {Q : UInt64 → Lock Tid → Prop} {w : Lock Tid}
    (h : ∀ w', Inv w' → Keeps t w w' → Q w'.state w') : wp (logic t) (Prog.op (S := sig) .load) Q w :=
  fun w' hr => .of_ok trivial rfl fun _ => ⟨.same rfl rfl rfl, h w' hr.1 hr.2⟩

theorem wp_spinLoop {t : Tid} {α : Type} {Q : α → Lock Tid → Prop} {w : Lock Tid} :
    wp (logic t) (spinLoop : Prog sig α) Q w :=
  fun _ _ => .of_error trivial rfl (by simp [logic])

/-- An exchange either succeeds, on the word it expects, or changes nothing. -/
theorem wp_exchange {t : Tid} {site : Site} {s : UInt64} {Q : Bool × UInt64 → Lock Tid → Prop}
    {w : Lock Tid}
    (hok : ∀ w' rest, Inv w' → Keeps t w w' → w'.state = s →
      Fits (site.grant t { w' with state := site.desired s, weak := rest }) →
      Guar t w' (site.grant t { w' with state := site.desired s, weak := rest }) ∧
        Q (true, s) (site.grant t { w' with state := site.desired s, weak := rest }))
    (hno : ∀ w' rest, Keeps t w w' → Q (false, w'.state) { w' with weak := rest }) :
    wp (logic t) (Prog.op (S := sig) (.exchange site s)) Q w := by
  rintro w' ⟨hinv, hk⟩
  refine ⟨trivial, ?_⟩
  simp only [logic, exec]
  by_cases h : w'.state = s ∧ w'.weak 0 = false
  · rw [if_pos h]
    exact hok w' _ hinv hk h.1
  · rw [if_neg h]
    exact fun _ => ⟨.same rfl rfl rfl, hno w' _ hk⟩

theorem wp_read {t : Tid} (n : Nat) (w : Lock Tid) : wp (logic t) (read n) (fun _ _ => True) w := by
  induction n generalizing w with
  | zero => exact wp_spinLoop
  | succ n ih =>
    unfold read
    refine wp_seq (wp_load (Q := fun _ _ => True) fun _ _ _ => trivial) fun s w1 _ => ?_
    refine wp_ite _ (fun _ => ih w1) fun h0 => ?_
    rw [ne_eq, not_not, writerBits_eq_zero] at h0
    refine wp_seq (P := fun _ _ => True) (wp_exchange ?_ fun _ _ _ => trivial) fun r w2 _ => ?_
    · rintro w' rest - - rfl hf
      exact ⟨guar_casRead h0 rfl rfl rfl hf, trivial⟩
    · exact wp_ite _ (fun _ => trivial) fun _ => ih w2

/-- While the thread waits for the readers it stays the pending writer. -/
theorem wp_awaitReaders {t : Tid} (n : Nat) (w : Lock Tid) (ht : (t, false) ∈ w.writers) :
    wp (logic t) (awaitReaders n) (fun _ _ => True) w := by
  induction n generalizing w with
  | zero => exact wp_spinLoop
  | succ n ih =>
    unfold awaitReaders
    refine wp_seq (P := fun _ w' => (t, false) ∈ w'.writers)
      (wp_load fun w' _ hk => hk.writers _ ht) fun s w1 ht1 => ?_
    refine wp_ite _ (fun h0 => ?_) fun _ => ih w1 ht1
    refine wp_seq (P := fun r w' => r.1 = true ∨ (t, false) ∈ w'.writers)
      (wp_exchange ?_ fun w' _ hk => Or.inr (hk.writers _ ht1)) fun r w2 h2 => ?_
    · rintro w' rest hinv hk rfl -
      exact ⟨guar_casLocked hinv (hk.writers _ ht1) h0 rfl rfl rfl, Or.inl rfl⟩
    · exact wp_ite _ (fun _ => trivial) fun hr => ih w2 (h2.resolve_left hr)

theorem wp_takePending {t : Tid} (n : Nat) (s : UInt64) (w : Lock Tid) :
    wp (logic t) (takePending n s) (fun _ _ => True) w := by
  induction n generalizing s w with
  | zero => exact wp_spinLoop
  | succ n ih =>
    unfold takePending
    refine wp_ite _ (fun _ => trivial) fun h0 => ?_
    rw [ne_eq, not_not, writerBits_eq_zero] at h0
    refine wp_seq (P := fun r w' => r.1 = true → (t, false) ∈ w'.writers)
      (wp_exchange ?_ fun _ _ _ h => by cases h) fun r w1 h1 => ?_
    · rintro w' rest - - rfl -
      exact ⟨guar_casPending h0 rfl rfl rfl, fun _ => List.mem_cons_self⟩
    · exact wp_ite _ (fun hr => wp_awaitReaders n w1 (h1 hr)) fun _ => ih r.2 w1

theorem wp_tryWrite {t : Tid} (n : Nat) (w : Lock Tid) :
    wp (logic t) (tryWrite n) (fun _ _ => True) w :=
  wp_seq (wp_load (Q := fun _ _ => True) fun _ _ _ => trivial) fun s w1 _ => wp_takePending n s w1

theorem wp_dropRead {t : Tid} (w : Lock Tid) (ht : t ∈ w.readers) :
    wp (logic t) dropRead (fun _ _ => True) w :=
  fun _ hr => .of_ok trivial rfl fun _ => ⟨guar_fetchSub (hr.2.mem ht) rfl rfl rfl, trivial⟩

theorem wp_dropWrite {t : Tid} (w : Lock Tid) (ht : (t, true) ∈ w.writers) :
    wp (logic t) dropWrite (fun _ _ => True) w :=
  fun _ hr => .of_ok trivial rfl fun _ =>
    ⟨guar_fetchAnd hr.1 (hr.2.writers _ ht) rfl rfl rfl, trivial⟩

/-! ## All interleavings -/

def proof : Proof (locks : System sig (Lock Tid) Tid (Call Tid) Bool) Fits where
  inv := Inv
  rely t w w' := Inv w' ∧ Keeps t w w'
  guar := Guar
  safe _ _ _ := True
  idle _ _ := True
  post _ _ _ _ := True
  rely_refl t w h := ⟨h, .refl t w⟩
  rely_trans _ _ _ _ h1 h2 := ⟨h2.1, h1.2.trans h2.2⟩
  guar_inv _ _ _ h hg := hg.inv h
  guar_rely _ u _ _ h hg hne := ⟨hg.inv h, hg.keeps u (Ne.symm hne)⟩
  idle_stable _ _ _ _ _ := trivial
  post_stable _ _ _ _ _ _ _ := trivial
  call t c n w hinv _ hl _ := by
    cases c with
    | read => exact ⟨.same rfl rfl rfl, wp_read n w⟩
    | tryWrite => exact ⟨.same rfl rfl rfl, wp_tryWrite n w⟩
    | dropRead => exact ⟨.same rfl rfl rfl, wp_dropRead w hl⟩
    | dropWrite => exact ⟨.same rfl rfl rfl, wp_dropWrite w hl⟩
    | sendRead u => exact ⟨guar_sendRead hl rfl rfl rfl, trivial⟩
    | sendWrite u => exact ⟨guar_sendWrite hinv hl rfl rfl rfl, trivial⟩
  leave _ _ _ _ _ _ _ := ⟨.same rfl rfl rfl, trivial⟩

omit [DecidableEq Tid] in
theorem inv_new (weak : Nat → Bool) : Inv (new weak : Lock Tid) :=
  ⟨by unfold Fits new; simp, .free rfl rfl⟩

end

end Tobdd.RwWPre
