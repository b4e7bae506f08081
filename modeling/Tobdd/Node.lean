import Mathlib.Data.Prod.Lex
import Mathlib.Order.Compare
import Tobdd.Words

/-!
# Nodes and the heap

`Node` of `node.rs`, and the memory it lives in.  A handle `Bdd` is an address, `0` the
null pointer.  Where a new node goes is the allocator's business: `tape` lists the
addresses it would like to hand out next, and any free address may stand there, one
that was freed before too.

`MARK`, the highest bit of `level`, is set and cleared by the collector.  `Node.Same` says
that two nodes agree but for that bit, the link and the count of references.
-/

namespace Tobdd

/-- `*mut Node`. -/
abbrev Bdd := Nat

/-- `bdd as u64`. -/
def addr (b : Bdd) : UInt64 := UInt64.ofNat b

/-- The type of `Node::key`, ordered as the tuple is. -/
abbrev Key := ℕ ×ₗ ℕ ×ₗ ℕ

structure Node where
  refCnt : UInt64
  level : UInt64
  low : Bdd
  high : Bdd
  next : Bdd
  hash : UInt64
  deriving Repr, DecidableEq, Inhabited

/-! ## The mark -/

def MARK : UInt64 := 0x8000000000000000

/-- `level & !MARK`. -/
def unmark (l : UInt64) : UInt64 := l &&& ~~~MARK

theorem unmark_or_mark (l : UInt64) : unmark (l ||| MARK) = unmark l := by
  unfold unmark
  apply UInt64.eq_of_toBitVec_eq
  ext i
  simp only [UInt64.toBitVec_and, UInt64.toBitVec_or, UInt64.toBitVec_not, BitVec.getElem_and,
    BitVec.getElem_or, BitVec.getElem_not]
  cases MARK.toBitVec[i] <;> simp

theorem unmark_unmark (l : UInt64) : unmark (unmark l) = unmark l := by
  unfold unmark
  apply UInt64.eq_of_toBitVec_eq
  ext i
  simp

theorem or_mark_marked (l : UInt64) : (l ||| MARK) &&& MARK ≠ 0 := by
  have h : (l ||| MARK) &&& MARK = MARK := by
    apply UInt64.eq_of_toBitVec_eq
    ext i
    simp only [UInt64.toBitVec_and, UInt64.toBitVec_or, BitVec.getElem_and, BitVec.getElem_or]
    cases MARK.toBitVec[i] <;> simp
  rw [h]
  decide

theorem unmark_of_not_marked {l : UInt64} (h : l &&& MARK = 0) : unmark l = l := by
  unfold unmark
  apply UInt64.eq_of_toBitVec_eq
  ext i hi
  have h2 : (l &&& MARK).toBitVec[i] = false := by rw [h]; simp
  simp only [UInt64.toBitVec_and, BitVec.getElem_and, UInt64.toBitVec_not, BitVec.getElem_not] at h2 ⊢
  cases hm : MARK.toBitVec[i] <;> simp_all

theorem not_marked_of_lt {l : UInt64} (h : l.toNat < 2 ^ 63) : l &&& MARK = 0 := by
  apply UInt64.eq_of_toBitVec_eq
  ext i hi
  simp only [UInt64.toBitVec_and, BitVec.getElem_and]
  by_cases h63 : i = 63
  · subst h63
    have : l.toBitVec[63] = false := by
      rw [BitVec.getElem_eq_testBit_toNat]
      exact Nat.testBit_lt_two_pow h
    rw [this]
    simp
  · have : MARK.toBitVec[i] = false := by
      have : i < 63 := by omega
      revert i
      decide
    rw [this]
    simp

/-! ## Nodes -/

namespace Node

/-- `Node::new`. -/
def new (level : UInt64) : Node := ⟨0, level, 0, 0, 0, splitmix64_3 level 0 0⟩

/-- `Node::from`. -/
def from' (level : UInt64) (low high : Bdd) : Node :=
  ⟨0, level, low, high, 0, splitmix64_3 level (addr low) (addr high)⟩

def key (n : Node) : Key := toLex (n.level.toNat, toLex (n.low, n.high))

/-- `rehash`. -/
def rehash (n : Node) : Node := { n with hash := splitmix64_3 n.level (addr n.low) (addr n.high) }

/-- What `level` says without the mark. -/
def lvl (n : Node) : Nat := (unmark n.level).toNat

/-- `hash` belongs to the key. -/
def HashOk (n : Node) : Prop := n.hash = splitmix64_3 n.level (addr n.low) (addr n.high)

def Marked (n : Node) : Prop := n.level &&& MARK ≠ 0

instance (n : Node) : Decidable n.Marked := inferInstanceAs (Decidable (_ ≠ _))

/-- `m` is `n` but for the count of references, the mark and the link. -/
structure Same (n m : Node) : Prop where
  level : unmark m.level = unmark n.level
  low : m.low = n.low
  high : m.high = n.high
  hash : m.hash = n.hash

theorem Same.refl (n : Node) : Same n n := ⟨rfl, rfl, rfl, rfl⟩

theorem Same.trans {a b c : Node} (h1 : Same a b) (h2 : Same b c) : Same a c :=
  ⟨h2.level.trans h1.level, h2.low.trans h1.low, h2.high.trans h1.high, h2.hash.trans h1.hash⟩

theorem Same.lvl {n m : Node} (h : Same n m) : m.lvl = n.lvl := by
  unfold Node.lvl
  rw [h.level]

/-- `m` is `n` but for the link. -/
structure Relinked (n m : Node) : Prop where
  refCnt : m.refCnt = n.refCnt
  level : m.level = n.level
  low : m.low = n.low
  high : m.high = n.high
  hash : m.hash = n.hash

theorem Relinked.refl (n : Node) : Relinked n n := ⟨rfl, rfl, rfl, rfl, rfl⟩

theorem Relinked.trans {a b c : Node} (h1 : Relinked a b) (h2 : Relinked b c) : Relinked a c :=
  ⟨h2.refCnt.trans h1.refCnt, h2.level.trans h1.level, h2.low.trans h1.low, h2.high.trans h1.high,
    h2.hash.trans h1.hash⟩

theorem Relinked.same {n m : Node} (h : Relinked n m) : Same n m :=
  ⟨by rw [h.level], h.low, h.high, h.hash⟩

theorem Relinked.key {n m : Node} (h : Relinked n m) : m.key = n.key := by
  unfold Node.key
  rw [h.level, h.low, h.high]

theorem Relinked.marked {n m : Node} (h : Relinked n m) : m.Marked ↔ n.Marked := by
  unfold Marked
  rw [h.level]

theorem Relinked.hashOk {n m : Node} (h : Relinked n m) (hn : n.HashOk) : m.HashOk := by
  unfold HashOk at hn ⊢
  rw [h.hash, h.level, h.low, h.high, hn]

/-- `m` is `n` but for the count of references. -/
structure Recounted (n m : Node) : Prop where
  level : m.level = n.level
  low : m.low = n.low
  high : m.high = n.high
  next : m.next = n.next
  hash : m.hash = n.hash

theorem Recounted.refl (n : Node) : Recounted n n := ⟨rfl, rfl, rfl, rfl, rfl⟩

theorem Recounted.trans {a b c : Node} (h1 : Recounted a b) (h2 : Recounted b c) : Recounted a c :=
  ⟨h2.level.trans h1.level, h2.low.trans h1.low, h2.high.trans h1.high, h2.next.trans h1.next,
    h2.hash.trans h1.hash⟩

theorem Recounted.same {n m : Node} (h : Recounted n m) : Same n m :=
  ⟨by rw [h.level], h.low, h.high, h.hash⟩

theorem Recounted.key {n m : Node} (h : Recounted n m) : m.key = n.key := by
  unfold Node.key
  rw [h.level, h.low, h.high]

theorem Recounted.hashOk {n m : Node} (h : Recounted n m) (hn : n.HashOk) : m.HashOk := by
  unfold HashOk at hn ⊢
  rw [h.hash, h.level, h.low, h.high, hn]

/-- `m` is `n` but for the count of references and the link. -/
structure Alike (n m : Node) : Prop where
  level : m.level = n.level
  low : m.low = n.low
  high : m.high = n.high
  hash : m.hash = n.hash

theorem Alike.refl (n : Node) : Alike n n := ⟨rfl, rfl, rfl, rfl⟩

theorem Alike.trans {a b c : Node} (h1 : Alike a b) (h2 : Alike b c) : Alike a c :=
  ⟨h2.level.trans h1.level, h2.low.trans h1.low, h2.high.trans h1.high, h2.hash.trans h1.hash⟩

theorem Alike.symm {n m : Node} (h : Alike n m) : Alike m n :=
  ⟨h.level.symm, h.low.symm, h.high.symm, h.hash.symm⟩

theorem Relinked.alike {n m : Node} (h : Relinked n m) : Alike n m :=
  ⟨h.level, h.low, h.high, h.hash⟩

theorem Recounted.alike {n m : Node} (h : Recounted n m) : Alike n m :=
  ⟨h.level, h.low, h.high, h.hash⟩

theorem Alike.same {n m : Node} (h : Alike n m) : Same n m :=
  ⟨by rw [h.level], h.low, h.high, h.hash⟩

theorem Alike.key {n m : Node} (h : Alike n m) : m.key = n.key := by
  unfold Node.key
  rw [h.level, h.low, h.high]

theorem Alike.marked {n m : Node} (h : Alike n m) : m.Marked ↔ n.Marked := by
  unfold Marked
  rw [h.level]

theorem Alike.hashOk {n m : Node} (h : Alike n m) (hn : n.HashOk) : m.HashOk := by
  unfold HashOk at hn ⊢
  rw [h.hash, h.level, h.low, h.high, hn]

theorem key_eq_iff {n m : Node} :
    n.key = m.key ↔ n.level = m.level ∧ n.low = m.low ∧ n.high = m.high := by
  unfold Node.key
  simp only [EmbeddingLike.apply_eq_iff_eq, Prod.mk.injEq, UInt64.toNat_inj]

/-- Nodes with one key have one hash. -/
theorem HashOk.eq_of_key {n m : Node} (hn : n.HashOk) (hm : m.HashOk) (h : n.key = m.key) :
    n.hash = m.hash := by
  obtain ⟨h1, h2, h3⟩ := key_eq_iff.mp h
  unfold HashOk at hn hm
  rw [hn, hm, h1, h2, h3]

end Node

/-! ## The heap -/

@[ext]
structure Heap where
  cell : Bdd → Option Node
  /-- every address in use is below -/
  brk : Nat
  /-- where the allocator would like to put the coming nodes -/
  tape : Nat → Bdd
  /-- how often each address was freed (for the proof only) -/
  frees : Bdd → Nat
  null_free : cell 0 = none
  above : ∀ a : Nat, brk ≤ a → cell a = none

namespace Heap

def Has (h : Heap) (a : Bdd) : Prop := ∃ n, h.cell a = some n

/-- The node at `a`, where there is one. -/
def get (h : Heap) (a : Bdd) : Node := (h.cell a).getD default

/-- The address `Box::new` returns. -/
def fresh (h : Heap) : Bdd :=
  if h.tape 0 ≠ 0 ∧ h.cell (h.tape 0) = none then h.tape 0 else max h.brk 1

theorem fresh_ne_zero (h : Heap) : h.fresh ≠ 0 := by
  unfold fresh
  split
  · next hc => exact hc.1
  · exact Nat.ne_of_gt (Nat.lt_of_lt_of_le Nat.one_pos (Nat.le_max_right _ _))

theorem fresh_free (h : Heap) : h.cell h.fresh = none := by
  unfold fresh
  split
  · next hc => exact hc.2
  · exact h.above _ (Nat.le_max_left _ _)

/-- `Box::into_raw(Box::new(n))`. -/
def alloc (h : Heap) (n : Node) : Heap where
  cell := Function.update h.cell h.fresh (some n)
  brk := max h.brk (h.fresh + 1)
  tape i := h.tape (i + 1)
  frees := h.frees
  null_free := by rw [Function.update_of_ne h.fresh_ne_zero.symm, h.null_free]
  above a ha := by
    have h1 : h.fresh < a := Nat.le_trans (Nat.le_max_right h.brk (h.fresh + 1)) ha
    rw [Function.update_of_ne (Nat.ne_of_gt h1), h.above a (Nat.le_trans (Nat.le_max_left _ _) ha)]

/-- `drop(Box::from_raw(a))`. -/
def free (h : Heap) (a : Bdd) : Heap where
  cell := Function.update h.cell a none
  brk := h.brk
  tape := h.tape
  frees := Function.update h.frees a (h.frees a + 1)
  null_free := by
    by_cases ha : a = 0
    · rw [ha, Function.update_self]
    · rw [Function.update_of_ne (Ne.symm ha), h.null_free]
  above b hb := by
    by_cases ha : b = a
    · rw [ha, Function.update_self]
    · rw [Function.update_of_ne ha, h.above b hb]

/-- Write fields of the node at `a`. -/
def modify (h : Heap) (a : Bdd) (f : Node → Node) : Heap where
  cell := Function.update h.cell a ((h.cell a).map f)
  brk := h.brk
  tape := h.tape
  frees := h.frees
  null_free := by
    by_cases ha : a = 0
    · subst ha
      rw [Function.update_self, h.null_free]
      rfl
    · rw [Function.update_of_ne (Ne.symm ha), h.null_free]
  above b hb := by
    by_cases ha : b = a
    · subst ha
      rw [Function.update_self, h.above b hb]
      rfl
    · rw [Function.update_of_ne ha, h.above b hb]

/-- A heap without nodes. -/
def empty (tape : Nat → Bdd) : Heap := ⟨fun _ => none, 0, tape, fun _ => 0, rfl, fun _ _ => rfl⟩

variable {h : Heap} {a b c : Bdd} {n : Node} {f : Node → Node}

theorem Has.ne_zero (ha : h.Has a) : a ≠ 0 := by
  rintro rfl
  obtain ⟨n, hn⟩ := ha
  rw [h.null_free] at hn
  cases hn

theorem Has.lt_brk (ha : h.Has a) : a < h.brk := by
  obtain ⟨n, hn⟩ := ha
  rcases Nat.lt_or_ge a h.brk with hlt | hge
  · exact hlt
  · rw [h.above a hge] at hn
    cases hn

theorem Has.cell (ha : h.Has a) : h.cell a = some (h.get a) := by
  obtain ⟨n, hn⟩ := ha
  unfold get
  rw [hn]
  rfl

theorem cell_of_not_has (ha : ¬ h.Has a) : h.cell a = none := by
  cases hc : h.cell a with
  | none => rfl
  | some n => exact absurd ⟨n, hc⟩ ha

theorem get_of_not_has (ha : ¬ h.Has a) : h.get a = default := by
  unfold get
  rw [cell_of_not_has ha]
  rfl

theorem get_of_cell (ha : h.cell a = some n) : h.get a = n := by
  unfold get
  rw [ha]
  rfl

theorem fresh_not_has (h : Heap) : ¬ h.Has h.fresh := by
  rintro ⟨n, hn⟩
  rw [fresh_free] at hn
  cases hn

theorem Has.ne_fresh (ha : h.Has a) : a ≠ h.fresh := by
  rintro rfl
  exact h.fresh_not_has ha

@[simp] theorem modify_brk : (h.modify a f).brk = h.brk := rfl
@[simp] theorem modify_tape : (h.modify a f).tape = h.tape := rfl
@[simp] theorem modify_frees : (h.modify a f).frees = h.frees := rfl

theorem modify_cell_self : (h.modify a f).cell a = (h.cell a).map f := Function.update_self ..

theorem modify_cell_of_ne (hb : b ≠ a) : (h.modify a f).cell b = h.cell b :=
  Function.update_of_ne hb _ _

@[simp] theorem modify_has : (h.modify a f).Has b ↔ h.Has b := by
  unfold Has
  by_cases hb : b = a
  · subst hb
    rw [modify_cell_self]
    cases h.cell b <;> simp
  · rw [modify_cell_of_ne hb]

theorem modify_get_self (ha : h.Has a) : (h.modify a f).get a = f (h.get a) := by
  apply get_of_cell
  rw [modify_cell_self, ha.cell]
  rfl

theorem modify_get_of_ne (hb : b ≠ a) : (h.modify a f).get b = h.get b := by
  unfold get
  rw [modify_cell_of_ne hb]

/-- Writing the link of one node. -/
theorem modify_next_get : Node.Relinked (h.get b) ((h.modify a fun n => { n with next := c }).get b) := by
  by_cases hb : b = a
  · subst hb
    unfold get
    rw [modify_cell_self]
    cases h.cell b <;> exact ⟨rfl, rfl, rfl, rfl, rfl⟩
  · rw [modify_get_of_ne hb]
    exact .refl _

theorem alloc_cell_self : (h.alloc n).cell h.fresh = some n := Function.update_self ..

theorem alloc_cell_of_ne (hb : b ≠ h.fresh) : (h.alloc n).cell b = h.cell b :=
  Function.update_of_ne hb _ _

theorem free_cell_self : (h.free a).cell a = none := Function.update_self ..

theorem free_cell_of_ne (hb : b ≠ a) : (h.free a).cell b = h.cell b :=
  Function.update_of_ne hb _ _

end Heap

end Tobdd
