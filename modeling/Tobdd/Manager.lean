import Tobdd.Cache
import Tobdd.Set

/-!
# The manager of `tobdd.rs`

The operations of a manager, as programs over its steps (`Op`): the accesses to its
table, `make_node`, the memo tables, the lock.  `make_node` is one step here; `SetThreads`
shows what several of them do to one table at a time.  The lock is seen through its guards
(`RwWPre` has its word).

`World` is the memory of one process: any number of managers, a heap, and a scratch node
for each thread.
-/

namespace Tobdd

open Resume

/-- The lock of a manager: the threads that hold a read guard; the thread that has set
`WRITE_PENDING`, with `true` once it holds the write guard. -/
structure RwLock where
  readers : List Nat
  writer : Option (Nat × Bool)

/-- The memo tables with two operands. -/
inductive Memo where
  | and
  | or
  | comp
  | quantExist
  | quantForall
  deriving DecidableEq, Repr

/-- The fields of a manager that never change. -/
structure Consts where
  numVars : Nat
  trueId : Bdd
  falseId : Bdd
  vars : List Bdd
  nvars : List Bdd

structure Manager extends Consts where
  set : LockFreeSet
  rwLock : RwLock
  notCache : LockFreeCache Bdd Bdd
  /-- `and_cache`, `or_cache` and so on -/
  cache : Memo → LockFreeCache (Bdd × Bdd) Bdd

structure World where
  heap : Heap
  freeId : Nat → Bdd
  /-- which managers there are -/
  made : Nat → Bool
  mgr : Nat → Manager

namespace World

/-- The memory that the code of the table of manager `m` works on. -/
def store (w : World) (m : Nat) : Store := ⟨w.heap, (w.mgr m).set, w.freeId⟩

def setMgr (w : World) (m : Nat) (g : Manager) : World :=
  { w with mgr := Function.update w.mgr m g }

def put (w : World) (m : Nat) (s : Store) : World :=
  { w.setMgr m { w.mgr m with set := s.set } with heap := s.heap, freeId := s.freeId }

end World

namespace Manager

/-! ## The steps -/

inductive Op where
  | acc (o : Access)
  /-- an access of the code that runs under the write lock -/
  | clean (o : Access)
  | makeNode (level : UInt64) (low high : Bdd)
  | notGet (hash : UInt64) (bdd : Bdd)
  | notInsert (hash : UInt64) (bdd res : Bdd)
  | get (c : Memo) (hash : UInt64) (pair : Bdd × Bdd)
  | insert (c : Memo) (hash : UInt64) (pair : Bdd × Bdd) (res : Bdd)
  | notInvalidate
  | notGrow
  | invalidate (c : Memo)
  | grow (c : Memo)
  /-- the first half of `try_write` -/
  | tryPending
  /-- the second half: wait until the readers are gone -/
  | awaitReaders
  /-- the write guard is dropped -/
  | dropWrite
  | read
  /-- the read guard is dropped -/
  | dropRead
  | spinLoop

def ops : Sig where
  Op := Op
  Res
    | .acc o | .clean o => mem.Res o
    | .makeNode _ _ _ | .notGet _ _ | .get _ _ _ => Bdd
    | .tryPending => Bool
    | .spinLoop => Empty
    | .notInsert _ _ _ | .insert _ _ _ _ | .notInvalidate | .notGrow | .invalidate _ | .grow _
    | .awaitReaders | .dropWrite | .read | .dropRead => Unit

/-- A step that changes the record of manager `m`. -/
def change (w : World) (m : Nat) (g : Manager) : Except Stop (Unit × World) :=
  .ok ((), w.setMgr m g)

/-- The step `o` of thread `t` on manager `m`. -/
def exec (m t : Nat) : (o : ops.Op) → World → Except Stop (ops.Res o × World)
  | .acc o, w =>
    match (w.store m).exec t o with
    | .ok (r, s) => .ok (r, w.put m s)
    | .error e => .error e
  | .clean o, w =>
    match (w.store m).exec t o with
    | .ok (r, s) => .ok (r, w.put m s)
    | .error e => .error e
  | .makeNode level low high, w =>
    -- a chain has no more nodes than there are addresses in use
    match run (Store.exec t) (Tobdd.makeNode level low high (w.heap.brk + 2)) (w.store m) with
    | .ok (r, s) => .ok (r, w.put m s)
    | .error e => .error e
  | .notGet hash bdd, w =>
    match (w.mgr m).notCache.get hash bdd with
    | .ok v => .ok (v, w)
    | .error e => .error e
  | .notInsert hash bdd res, w =>
    match (w.mgr m).notCache.insert hash bdd res with
    | .ok (_, c) => change w m { w.mgr m with notCache := c }
    | .error e => .error e
  | .get c hash pair, w =>
    match ((w.mgr m).cache c).get hash pair with
    | .ok v => .ok (v, w)
    | .error e => .error e
  | .insert c hash pair res, w =>
    match ((w.mgr m).cache c).insert hash pair res with
    | .ok (_, d) => change w m { w.mgr m with cache := Function.update (w.mgr m).cache c d }
    | .error e => .error e
  | .notInvalidate, w => change w m { w.mgr m with notCache := (w.mgr m).notCache.invalidateAll }
  | .notGrow, w => change w m { w.mgr m with notCache := (w.mgr m).notCache.grow }
  | .invalidate c, w =>
    change w m { w.mgr m with
      cache := Function.update (w.mgr m).cache c ((w.mgr m).cache c).invalidateAll }
  | .grow c, w =>
    change w m { w.mgr m with cache := Function.update (w.mgr m).cache c ((w.mgr m).cache c).grow }
  | .tryPending, w =>
    match (w.mgr m).rwLock.writer with
    | some _ => .ok (false, w)
    | none =>
      .ok (true, w.setMgr m { w.mgr m with
        rwLock := { (w.mgr m).rwLock with writer := some (t, false) } })
  | .awaitReaders, w =>
    if (w.mgr m).rwLock.readers = [] then
      change w m { w.mgr m with rwLock := { (w.mgr m).rwLock with writer := some (t, true) } }
    else .error .spin
  | .dropWrite, w =>
    change w m { w.mgr m with rwLock := { (w.mgr m).rwLock with writer := none } }
  | .read, w =>
    if (w.mgr m).rwLock.writer = none then
      change w m { w.mgr m with
        rwLock := { (w.mgr m).rwLock with readers := t :: (w.mgr m).rwLock.readers } }
    else .error .spin
  | .dropRead, w =>
    change w m { w.mgr m with
      rwLock := { (w.mgr m).rwLock with readers := (w.mgr m).rwLock.readers.erase t } }
  | .spinLoop, _ => .error .spin

/-- The steps that only the holder of the write lock may take. -/
def Op.Cleans : Op → Prop
  | .clean _ | .notInvalidate | .notGrow | .invalidate _ | .grow _ => True
  | _ => False

instance : (o : Op) → Decidable o.Cleans
  | .clean _ | .notInvalidate | .notGrow | .invalidate _ | .grow _ => inferInstanceAs (Decidable True)
  | .acc _ | .makeNode _ _ _ | .notGet _ _ | .notInsert _ _ _ | .get _ _ _ | .insert _ _ _ _
  | .tryPending | .awaitReaders | .dropWrite | .read | .dropRead | .spinLoop =>
    inferInstanceAs (Decidable False)

def step (o : Op) : Prog ops (ops.Res o) := Prog.op (S := ops) o

def spinLoop {α : Type} : Prog ops α := .step (.spinLoop : Op) Empty.elim

/-- The code of the table is code of the manager. -/
def table : Emb mem ops where
  op o := Op.acc o
  res _ r := r

/-- The collector and the growth of the table. -/
def cleaner : Emb mem ops where
  op o := Op.clean o
  res _ r := r

/-! ## The recursions -/

def notRec (g : Consts) : Nat → Bdd → Prog ops Bdd
  | 0, _ => spinLoop
  | n + 1, bdd =>
    if bdd = g.trueId then return g.falseId
    else if bdd = g.falseId then return g.trueId
    else do
      let hash := splitmix64 (addr bdd)
      let cached : Bdd ← step (.notGet hash bdd)
      if cached ≠ 0 then return cached
      else do
        let low : Bdd ← step (.acc (.low bdd))
        let fLow ← notRec g n low
        let high : Bdd ← step (.acc (.high bdd))
        let fHigh ← notRec g n high
        let level : UInt64 ← step (.acc (.level bdd))
        let res : Bdd ← step (.makeNode level fLow fHigh)
        let _ : Unit ← step (.notInsert hash bdd res)
        return res

/-- What follows the shortcuts in `_and_rec`, `_or_rec` and `_comp_rec`, which are alike from
there on; `rec` is the function itself. -/
def binRec (c : Memo) (rec : Bdd → Bdd → Prog ops Bdd) (lhs rhs : Bdd) : Prog ops Bdd := do
  let hash := splitmix64_2 (addr lhs) (addr rhs)
  let bdd : Bdd ← step (.get c hash (lhs, rhs))
  if bdd ≠ 0 then return bdd
  else do
    let lhsLevel : UInt64 ← step (.acc (.level lhs))
    let rhsLevel : UInt64 ← step (.acc (.level rhs))
    let res ← (
      if lhsLevel < rhsLevel then do
        let low : Bdd ← step (.acc (.low lhs))
        let fLow ← rec low rhs
        let high : Bdd ← step (.acc (.high lhs))
        let fHigh ← rec high rhs
        let level : UInt64 ← step (.acc (.level lhs))
        step (.makeNode level fLow fHigh)
      else if rhsLevel < lhsLevel then do
        let low : Bdd ← step (.acc (.low rhs))
        let fLow ← rec lhs low
        let high : Bdd ← step (.acc (.high rhs))
        let fHigh ← rec lhs high
        let level : UInt64 ← step (.acc (.level rhs))
        step (.makeNode level fLow fHigh)
      else do
        let lhsLow : Bdd ← step (.acc (.low lhs))
        let rhsLow : Bdd ← step (.acc (.low rhs))
        let fLow ← rec lhsLow rhsLow
        let lhsHigh : Bdd ← step (.acc (.high lhs))
        let rhsHigh : Bdd ← step (.acc (.high rhs))
        let fHigh ← rec lhsHigh rhsHigh
        let level : UInt64 ← step (.acc (.level lhs))
        step (.makeNode level fLow fHigh) : Prog ops Bdd)
    let _ : Unit ← step (.insert c hash (lhs, rhs) res)
    return res

/-- `[lhs, rhs][i]`. -/
def pick (lhs rhs : Bdd) (i : Bool) : Bdd := if i then rhs else lhs

def andRec (g : Consts) : Nat → Bdd → Bdd → Prog ops Bdd
  | 0, _, _ => spinLoop
  | n + 1, lhs₀, rhs₀ =>
    -- sort lhs, rhs without "if"
    let lhs := pick lhs₀ rhs₀ (lhs₀ ≥ rhs₀)
    let rhs := pick lhs₀ rhs₀ (lhs₀ < rhs₀)
    if lhs = rhs ∨ rhs = g.trueId then return lhs
    else if lhs = g.falseId ∨ rhs = g.falseId then return g.falseId
    else if lhs = g.trueId then return rhs
    else binRec .and (andRec g n) lhs rhs

def orRec (g : Consts) : Nat → Bdd → Bdd → Prog ops Bdd
  | 0, _, _ => spinLoop
  | n + 1, lhs₀, rhs₀ =>
    -- sort lhs, rhs without "if"
    let lhs := pick lhs₀ rhs₀ (lhs₀ ≥ rhs₀)
    let rhs := pick lhs₀ rhs₀ (lhs₀ < rhs₀)
    if lhs = rhs ∨ rhs = g.falseId then return lhs
    else if lhs = g.trueId ∨ rhs = g.trueId then return g.trueId
    else if lhs = g.falseId then return rhs
    else binRec .or (orRec g n) lhs rhs

def compRec (g : Consts) : Nat → Bdd → Bdd → Prog ops Bdd
  | 0, _, _ => spinLoop
  | n + 1, lhs, rhs =>
    if lhs = rhs ∨ lhs = g.falseId ∨ rhs = g.trueId then return g.falseId
    else if rhs = g.falseId then return lhs
    else if lhs = g.trueId then notRec g n rhs
    else binRec .comp (compRec g n) lhs rhs

/-! ## Cleaning up -/

/-- `entry_num - marked` in `usize`. -/
def wrapSub (a b : Nat) : Nat := (UInt64.ofNat a - UInt64.ofNat b).toNat

def invalidateCaches : Prog ops Unit := do
  let _ : Unit ← step (.invalidate .and)
  let _ : Unit ← step (.invalidate .or)
  let _ : Unit ← step (.invalidate .comp)
  let _ : Unit ← step .notInvalidate
  let _ : Unit ← step (.invalidate .quantExist)
  let _ : Unit ← step (.invalidate .quantForall)
  return ()

def growCaches : Prog ops Unit := do
  let _ : Unit ← step (.grow .and)
  let _ : Unit ← step (.grow .or)
  let _ : Unit ← step (.grow .comp)
  let _ : Unit ← step .notGrow
  let _ : Unit ← step (.grow .quantExist)
  let _ : Unit ← step (.grow .quantForall)
  return ()

/-- The body of `gc`, after the write lock was taken. -/
def collect (n : Nat) : Prog ops Nat := do
  let marked ← (LockFreeSet.markNodes n).lift cleaner
  (LockFreeSet.gcUnmarked n).lift cleaner
  (LockFreeSet.unmarkNodes n).lift cleaner
  invalidateCaches
  return marked

def gc (n : Nat) : Prog ops Nat := do
  let ok : Bool ← step .tryPending
  if ok then do
    let _ : Unit ← step .awaitReaders
    let marked ← collect n
    let _ : Unit ← step .dropWrite
    return marked
  else
    return 0

def MAX_LOAD_FACTOR : Nat := 1

/-- What `enter_op` does under the write lock. -/
def cleanUp (entryNum bucketSize n : Nat) : Prog ops Unit := do
  let marked ← (LockFreeSet.markNodes n).lift cleaner
  -- `(bucket_size as f64 * MIN_GC_RATIO) as usize`, with a power of two and `0.25`
  if wrapSub entryNum marked < bucketSize / 4 then do
    (LockFreeSet.unmarkNodes n).lift cleaner
    -- still exceed threshold after gc
    (LockFreeSet.grow n).lift cleaner
    growCaches
  else do
    (LockFreeSet.gcUnmarked n).lift cleaner
    (LockFreeSet.unmarkNodes n).lift cleaner
    invalidateCaches

/-- `enter_op`: clean up if the table is full and nobody else does, then take a read guard. -/
def enterOp (n : Nat) : Prog ops Unit := do
  let entryNum ← LockFreeSet.entryNum.lift table
  let bucketSize ← LockFreeSet.bucketSize.lift table
  let ok : Bool ← (if bucketSize * MAX_LOAD_FACTOR ≤ entryNum then step .tryPending
    else pure false : Prog ops Bool)
  if ok then do
    let _ : Unit ← step .awaitReaders
    cleanUp entryNum bucketSize n
    let _ : Unit ← step .dropWrite
    step .read
  else
    step .read

/-! ## The operations -/

def getNodeNum : Prog ops Nat := LockFreeSet.entryNum.lift table

def refBdd (bdd : Bdd) : Prog ops Unit := step (.acc (.fetchAdd bdd))

def derefBdd (bdd : Bdd) : Prog ops Unit := step (.acc (.fetchSub bdd))

/-- `not`, `and`, `or` and `comp` differ in the recursion. -/
def operation (n : Nat) (rec : Prog ops Bdd) : Prog ops Bdd := do
  enterOp n
  let ret ← rec
  refBdd ret
  let _ : Unit ← step .dropRead
  return ret

def not (g : Consts) (bdd : Bdd) (n : Nat) : Prog ops Bdd := operation n (notRec g n bdd)

def and (g : Consts) (lhs rhs : Bdd) (n : Nat) : Prog ops Bdd := operation n (andRec g n lhs rhs)

def or (g : Consts) (lhs rhs : Bdd) (n : Nat) : Prog ops Bdd := operation n (orRec g n lhs rhs)

def comp (g : Consts) (lhs rhs : Bdd) (n : Nat) : Prog ops Bdd := operation n (compRec g n lhs rhs)

/-! ## init -/

/-- Put a new node into the table, referenced once. -/
def addNode (node : Node) (n : Nat) : Prog mem Bdd := do
  let ptr : Bdd ← acc (.alloc node)
  let _ ← LockFreeSet.getOrInsert ptr n
  let _ : Unit ← acc (.fetchAdd ptr)
  return ptr

/-- The nodes of variable `i`, both allocated before either is inserted. -/
def addVar (falseId trueId : Bdd) (n i : Nat) (vs : List Bdd × List Bdd) :
    Prog mem (List Bdd × List Bdd) := do
  let varId : Bdd ← acc (.alloc (Node.from' (UInt64.ofNat i) falseId trueId))
  let nvarId : Bdd ← acc (.alloc (Node.from' (UInt64.ofNat i) trueId falseId))
  let _ ← LockFreeSet.getOrInsert varId n
  let _ ← LockFreeSet.getOrInsert nvarId n
  let _ : Unit ← acc (.fetchAdd varId)
  let _ : Unit ← acc (.fetchAdd nvarId)
  return (vs.1 ++ [varId], vs.2 ++ [nvarId])

/-- The nodes of a new manager. -/
def initNodes (varNum n : Nat) : Prog mem Consts := do
  let trueId ← addNode (Node.new 1) n
  let falseId ← addNode (Node.new 0) n
  -- `Vec::with_capacity` refuses more than `isize::MAX` bytes
  if 2 ^ 63 ≤ varNum * 8 then panic
  else do
    let vs ← Prog.forRange varNum (addVar falseId trueId n) ([], [])
    return ⟨varNum, trueId, falseId, vs.1, vs.2⟩

/-- `Manager::init`, by thread `t`: the new manager is number `m`. -/
def init (m t : Nat) (tableSize cacheSize : UInt64) (varNum n : Nat) (w : World) :
    Except Stop World :=
  match run (Store.exec t) (initNodes varNum n) ⟨w.heap, .withCapacity tableSize, w.freeId⟩ with
  | .ok (g, s) => .ok
    { heap := s.heap
      freeId := s.freeId
      made := Function.update w.made m true
      mgr := Function.update w.mgr m
        { g with
          set := s.set
          rwLock := ⟨[], none⟩
          notCache := .withCapacity cacheSize
          cache := fun _ => .withCapacity cacheSize } }
  | .error e => .error e

end Manager

end Tobdd
