import Tobdd.Lib.Prog
import Tobdd.Node

/-!
# The unique table of `set.rs`

`LockFreeSet`: a boxed slice of bucket heads, and a chain of nodes behind each.  The code
is written over the single accesses to the shared memory (`Access`), so that it can be
run alone or beside other threads; a loop takes the number of rounds it may go as an
argument, and `spinLoop` stands where they are used up.
-/

namespace Tobdd

open Resume

/-- An `AtomicPtr<Node>`: a bucket head, or the link in a node. -/
inductive Place where
  | head (i : Nat)
  | next (a : Bdd)
  deriving DecidableEq, Repr

structure LockFreeSet where
  buckets : Slice Bdd
  sizeExp : Nat
  numMarks : Nat
  numEntry : Nat
  /-- the threads that have linked a node and not yet counted it (for the proof only) -/
  owed : List Nat

/-- The memory that the code of one table works on; `freeId` is the thread local `FREE_ID`. -/
structure Store where
  heap : Heap
  set : LockFreeSet
  freeId : Nat → Bdd

namespace Store

/-- What a place holds. -/
def ld (s : Store) : Place → Bdd
  | .head i => s.set.buckets.get i
  | .next a => (s.heap.get a).next

/-- What happens to an access to a place that is not there. -/
def missing (s : Store) : Place → Option Stop
  | .head i => if i < s.set.buckets.len then none else some .panic
  | .next a => if (s.heap.cell a).isSome then none else some .fault

def put (s : Store) (b : Bdd) : Place → Store
  | .head i => { s with set := { s.set with buckets := s.set.buckets.set i b } }
  | .next a => { s with heap := s.heap.modify a fun n => { n with next := b } }

def look {α : Type} (s : Store) (a : Bdd) (f : Node → α) : Except Stop (α × Store) :=
  match s.heap.cell a with
  | some n => .ok (f n, s)
  | none => .error .fault

def edit (s : Store) (a : Bdd) (f : Node → Node) : Except Stop (Unit × Store) :=
  match s.heap.cell a with
  | some _ => .ok ((), { s with heap := s.heap.modify a f })
  | none => .error .fault

end Store

/-! ## The accesses -/

inductive Access where
  /-- `prev.load` -/
  | load (p : Place)
  /-- `prev.store` -/
  | store (p : Place) (b : Bdd)
  /-- `prev.compare_exchange(curr, new_ptr)` -/
  | cas (p : Place) (curr new : Bdd)
  | key (a : Bdd)
  | hash (a : Bdd)
  | level (a : Bdd)
  | low (a : Bdd)
  | high (a : Bdd)
  /-- `ref_cnt.load` -/
  | refCnt (a : Bdd)
  /-- `ref_cnt.fetch_add(1)` -/
  | fetchAdd (a : Bdd)
  /-- `ref_cnt.fetch_sub(1)` -/
  | fetchSub (a : Bdd)
  | setLevel (a : Bdd) (level : UInt64)
  | setLow (a : Bdd) (low : Bdd)
  | setHigh (a : Bdd) (high : Bdd)
  | rehash (a : Bdd)
  /-- `level |= MARK` -/
  | mark (a : Bdd)
  /-- `level &= !MARK` -/
  | unmark (a : Bdd)
  /-- `Box::into_raw(Box::new(n))` -/
  | alloc (n : Node)
  /-- `drop(Box::from_raw(a))` -/
  | free (a : Bdd)
  /-- `num_entry.fetch_add(1)` -/
  | addEntry
  /-- `num_entry.store` -/
  | setEntry (n : Nat)
  /-- `num_entry.load` -/
  | entryNum
  | numMarks
  | setMarks (n : Nat)
  | sizeExp
  | setSizeExp (e : Nat)
  | setBuckets (b : Slice Bdd)
  /-- `FREE_ID` -/
  | freeId
  | setFreeId (b : Bdd)
  | panic
  | spinLoop

def mem : Sig where
  Op := Access
  Res
    | .load _ => Bdd
    | .cas _ _ _ => Bool
    | .key _ => Key
    | .hash _ | .level _ | .refCnt _ => UInt64
    | .low _ | .high _ | .alloc _ | .freeId => Bdd
    | .entryNum | .numMarks | .sizeExp => Nat
    | .panic | .spinLoop => Empty
    | .store _ _ | .fetchAdd _ | .fetchSub _ | .setLevel _ _ | .setLow _ _ | .setHigh _ _
    | .rehash _ | .mark _ | .unmark _ | .free _ | .addEntry | .setEntry _ | .setMarks _
    | .setSizeExp _ | .setBuckets _ | .setFreeId _ => Unit

/-- The access `o` of thread `t`. -/
def Store.exec (t : Nat) : (o : mem.Op) → Store → Except Stop (mem.Res o × Store)
  | .load p, s =>
    match s.missing p with
    | none => .ok (s.ld p, s)
    | some e => .error e
  | .store p b, s =>
    match s.missing p with
    | none => .ok ((), s.put b p)
    | some e => .error e
  | .cas p curr new, s =>
    match s.missing p with
    | none =>
      if s.ld p = curr then
        let s' := s.put new p
        .ok (true, { s' with set := { s'.set with owed := t :: s'.set.owed } })
      else .ok (false, s)
    | some e => .error e
  | .key a, s => s.look a Node.key
  | .hash a, s => s.look a Node.hash
  | .level a, s => s.look a Node.level
  | .low a, s => s.look a Node.low
  | .high a, s => s.look a Node.high
  | .refCnt a, s => s.look a Node.refCnt
  | .fetchAdd a, s => s.edit a fun n => { n with refCnt := n.refCnt + 1 }
  | .fetchSub a, s => s.edit a fun n => { n with refCnt := n.refCnt - 1 }
  | .setLevel a level, s => s.edit a fun n => { n with level := level }
  | .setLow a low, s => s.edit a fun n => { n with low := low }
  | .setHigh a high, s => s.edit a fun n => { n with high := high }
  | .rehash a, s => s.edit a Node.rehash
  | .mark a, s => s.edit a fun n => { n with level := n.level ||| MARK }
  | .unmark a, s => s.edit a fun n => { n with level := Tobdd.unmark n.level }
  | .alloc n, s => .ok (s.heap.fresh, { s with heap := s.heap.alloc n })
  | .free a, s =>
    match s.heap.cell a with
    | some _ => .ok ((), { s with heap := s.heap.free a })
    | none => .error .fault
  | .addEntry, s =>
    .ok ((), { s with set :=
      { s.set with numEntry := s.set.numEntry + 1, owed := s.set.owed.erase t } })
  | .setEntry n, s => .ok ((), { s with set := { s.set with numEntry := n } })
  | .entryNum, s => .ok (s.set.numEntry, s)
  | .numMarks, s => .ok (s.set.numMarks, s)
  | .setMarks n, s => .ok ((), { s with set := { s.set with numMarks := n } })
  | .sizeExp, s => .ok (s.set.sizeExp, s)
  | .setSizeExp e, s => .ok ((), { s with set := { s.set with sizeExp := e } })
  | .setBuckets b, s => .ok ((), { s with set := { s.set with buckets := b } })
  | .freeId, s => .ok (s.freeId t, s)
  | .setFreeId b, s => .ok ((), { s with freeId := Function.update s.freeId t b })
  | .panic, _ => .error .panic
  | .spinLoop, _ => .error .spin

/-- One access, as a program. -/
def acc (o : Access) : Prog mem (mem.Res o) := Prog.op (S := mem) o

def spinLoop {α : Type} : Prog mem α := .step (.spinLoop : Access) Empty.elim

def panic {α : Type} : Prog mem α := .step (.panic : Access) Empty.elim

/-- `while !curr.is_null() { body; curr = curr.next.load() }`. -/
def eachNode {σ : Type} (body : Bdd → σ → Prog mem σ) : Nat → Bdd → σ → Prog mem σ
  | 0, _, _ => spinLoop
  | n + 1, curr, x =>
    if curr = 0 then return x
    else do
      let x ← body curr x
      let next : Bdd ← acc (.load (.next curr))
      eachNode body n next x

namespace LockFreeSet

def withCapacity (cap : UInt64) : LockFreeSet :=
  let sizeExp := capacityExp cap
  ⟨Slice.replicate (rangeI32 sizeExp) 0, sizeExp, 0, 0, []⟩

def bucketSize : Prog mem Nat := do
  let e : Nat ← acc .sizeExp
  return shl64 e

def entryNum : Prog mem Nat := acc .entryNum

/-! ## Insertion -/

/-- Where the search of `get_or_insert` ends: at an equal node, or between `prev` and `curr`. -/
inductive Found where
  | equal (curr : Bdd)
  | between (prev : Place) (curr : Bdd)

def walk (newKey : Key) : Nat → Place → Bdd → Prog mem Found
  | 0, _, _ => spinLoop
  | n + 1, prev, curr =>
    if curr = 0 then return .between prev curr
    else do
      let currKey : Key ← acc (.key curr)
      match cmp currKey newKey with
      | .eq => return .equal curr
      | .gt => return .between prev curr
      | .lt => do
        let next : Bdd ← acc (.load (.next curr))
        walk newKey n (.next curr) next

/-- The loop `'retry`. -/
def retry (newPtr : Bdd) (newKey : Key) (head : Place) : Nat → Prog mem (Bdd × Bool)
  | 0 => spinLoop
  | n + 1 => do
    let curr : Bdd ← acc (.load head)
    match ← walk newKey n head curr with
    | .equal curr => return (curr, false)
    | .between prev curr => do
      -- the new node is not published yet
      let _ : Unit ← acc (.store (.next newPtr) curr)
      let ok : Bool ← acc (.cas prev curr newPtr)
      if ok then do
        let _ : Unit ← acc .addEntry
        return (newPtr, true)
      else
        -- somebody inserted here: start again, and look again for an equal node
        retry newPtr newKey head n

def getOrInsert (newPtr : Bdd) (n : Nat) : Prog mem (Bdd × Bool) := do
  let hash : UInt64 ← acc (.hash newPtr)
  let e : Nat ← acc .sizeExp
  let head := Place.head (maskIdx hash e)
  let newKey : Key ← acc (.key newPtr)
  retry newPtr newKey head n

/-! ## Collection -/

def markRec : Nat → Bdd → Nat → Prog mem Nat
  | 0, _, _ => spinLoop
  | n + 1, root, counter => do
    let level : UInt64 ← acc (.level root)
    if level &&& MARK ≠ 0 then
      return counter
    else do
      let _ : Unit ← acc (.mark root)
      let counter := counter + 1
      let low : Bdd ← acc (.low root)
      let high : Bdd ← acc (.high root)
      let counter ← (if low ≠ 0 then markRec n low counter else pure counter)
      if high ≠ 0 then markRec n high counter else return counter

/-- The body of the loop of `mark_nodes`. -/
def markNode (n : Nat) (curr : Bdd) (counter : Nat) : Prog mem Nat := do
  let refCnt : UInt64 ← acc (.refCnt curr)
  if refCnt ≠ 0 then do
    let level : UInt64 ← acc (.level curr)
    if level &&& MARK = 0 then markRec n curr counter else return counter
  else
    return counter

def markNodes (n : Nat) : Prog mem Nat := do
  let e : Nat ← acc .sizeExp
  let counter ← Prog.forRange (shl64 e) (fun i counter => do
    let head : Bdd ← acc (.load (.head i))
    eachNode (markNode n) n head counter) 0
  let _ : Unit ← acc (.setMarks counter)
  return counter

def sweep : Nat → Place → Bdd → Prog mem Unit
  | 0, _, _ => spinLoop
  | n + 1, prev, curr =>
    if curr = 0 then return ()
    else do
      let level : UInt64 ← acc (.level curr)
      if level &&& MARK = 0 then do
        -- unmarked: out of the list, and free it
        let next : Bdd ← acc (.load (.next curr))
        let _ : Unit ← acc (.store prev next)
        let _ : Unit ← acc (.free curr)
        sweep n prev next
      else do
        let next : Bdd ← acc (.load (.next curr))
        sweep n (.next curr) next

def gcUnmarked (n : Nat) : Prog mem Unit := do
  let e : Nat ← acc .sizeExp
  Prog.forRange (shl64 e) (fun i _ => do
    let head : Bdd ← acc (.load (.head i))
    sweep n (.head i) head) ()
  let marks : Nat ← acc .numMarks
  let _ : Unit ← acc (.setEntry marks)
  return ()

def unmarkNode (curr : Bdd) (_ : Unit) : Prog mem Unit := do
  let level : UInt64 ← acc (.level curr)
  if level &&& MARK ≠ 0 then acc (.unmark curr) else return ()

def unmarkNodes (n : Nat) : Prog mem Unit := do
  let e : Nat ← acc .sizeExp
  Prog.forRange (shl64 e) (fun i _ => do
    let head : Bdd ← acc (.load (.head i))
    eachNode unmarkNode n head ()) ()

/-! ## Growth -/

/-- Load a place, where the heads are those of the array under construction. -/
def loadNew (newBuckets : Slice Bdd) : Place → Prog mem Bdd
  | .head i => return newBuckets.get i
  | .next a => acc (.load (.next a))

def storeNew (newBuckets : Slice Bdd) (b : Bdd) : Place → Prog mem (Slice Bdd)
  | .head i => return newBuckets.set i b
  | .next a => do
    let _ : Unit ← acc (.store (.next a) b)
    return newBuckets

/-- Where `curr_key` belongs, from `prev` on. -/
def scanNew (newBuckets : Slice Bdd) (currKey : Key) : Nat → Place → Bdd → Prog mem (Place × Bdd)
  | 0, _, _ => spinLoop
  | n + 1, prev, scan =>
    if scan = 0 then return (prev, scan)
    else do
      let scanKey : Key ← acc (.key scan)
      if cmp scanKey currKey = .gt then return (prev, scan)
      else do
        let next ← loadNew newBuckets (.next scan)
        scanNew newBuckets currKey n (.next scan) next

def moveChain (newSizeExp : Nat) : Nat → Bdd → Slice Bdd → Prog mem (Slice Bdd)
  | 0, _, _ => spinLoop
  | n + 1, curr, newBuckets =>
    if curr = 0 then return newBuckets
    else do
      let next : Bdd ← acc (.load (.next curr))
      let hash : UInt64 ← acc (.hash curr)
      let idx := maskIdx hash newSizeExp
      if newBuckets.len ≤ idx then panic
      else do
        let scan ← loadNew newBuckets (.head idx)
        let currKey : Key ← acc (.key curr)
        let (prev, scan) ← scanNew newBuckets currKey n (.head idx) scan
        let _ : Unit ← acc (.store (.next curr) scan)
        let newBuckets ← storeNew newBuckets curr prev
        moveChain newSizeExp n next newBuckets

def grow (n : Nat) : Prog mem Unit := do
  let e : Nat ← acc .sizeExp
  let newSizeExp := e + 1
  let newBuckets := Slice.replicate (rangeI32 newSizeExp) 0
  let e : Nat ← acc .sizeExp
  let newBuckets ← Prog.forRange (shl64 e) (fun i newBuckets => do
    let curr : Bdd ← acc (.load (.head i))
    moveChain newSizeExp n curr newBuckets) newBuckets
  let _ : Unit ← acc (.setBuckets newBuckets)
  let _ : Unit ← acc (.setSizeExp newSizeExp)
  return ()

end LockFreeSet

/-! ## The scratch node -/

/-- The first lines of `make_node`: the node in `FREE_ID`, a new one where there is none. -/
def scratch : Prog mem Bdd := do
  let ptr : Bdd ← acc .freeId
  if ptr = 0 then do
    let ptr : Bdd ← acc (.alloc (Node.new 0))
    let _ : Unit ← acc (.setFreeId ptr)
    return ptr
  else
    return ptr

/-- `Manager::make_node`. -/
def makeNode (level : UInt64) (low high : Bdd) (n : Nat) : Prog mem Bdd :=
  if low = high then return low
  else do
    let ptr ← scratch
    let _ : Unit ← acc (.setLevel ptr level)
    let _ : Unit ← acc (.setLow ptr low)
    let _ : Unit ← acc (.setHigh ptr high)
    let _ : Unit ← acc (.rehash ptr)
    let (present, inserted) ← LockFreeSet.getOrInsert ptr n
    if inserted then do
      let free : Bdd ← acc (.alloc (Node.new 0))
      let _ : Unit ← acc (.setFreeId free)
      return ptr
    else
      -- the scratch node was not used
      return present

end Tobdd
