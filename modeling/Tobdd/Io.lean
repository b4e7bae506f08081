import Mathlib.Data.List.AList
import Tobdd.Manager

/-!
# serialize, deserialize and print

The code of `BddIO` and `PrintSet`, over the steps of the manager and the calls of the writer
or the reader.  A stream is a header, the addresses of the two constants, and after it 32
bytes for each visit to an inner node: its address, its level and the addresses of its children.

The writer and the reader are whatever implements `std::io::Write` and `std::io::Read`; the
error type `ε` is theirs.
-/

namespace Tobdd

open Resume

/-- `std::io::Write`. -/
structure IoWrite (σ ε : Type) where
  writeAll : List UInt8 → σ → Except ε Unit × σ
  flush : σ → Except ε Unit × σ

/-- `std::io::Read`: `read_exact` of a number of bytes. -/
structure IoRead (σ ε : Type) where
  readExact : Nat → σ → Except ε (List UInt8) × σ

/-- `Vec<u8>`, which never fails. -/
def vecWrite (ε : Type) : IoWrite (List UInt8) ε where
  writeAll bytes out := (.ok (), out ++ bytes)
  flush out := (.ok (), out)

/-- `&[u8]`, which fails with `eof` when it is too short, and is empty then. -/
def sliceRead {ε : Type} (eof : ε) : IoRead (List UInt8) ε where
  readExact n input := if n ≤ input.length then (.ok (input.take n), input.drop n)
    else (.error eof, [])

/-- A reader that delivers the bytes `content`, and then ends or reports an error. -/
structure Delivers {σ ε : Type} (R : IoRead σ ε) (content : σ → List UInt8) : Prop where
  read : ∀ n x, n ≤ (content x).length → ∃ x', R.readExact n x = (.ok ((content x).take n), x') ∧
    content x' = (content x).drop n
  short : ∀ n x, (content x).length < n → ∃ e x', R.readExact n x = (.error e, x')

theorem sliceRead_delivers {ε : Type} (eof : ε) : Delivers (sliceRead eof) id :=
  ⟨fun _ _ h => ⟨_, if_pos h, rfl⟩, fun _ _ h => ⟨eof, [], if_neg (Nat.not_le_of_lt h)⟩⟩

namespace Manager

variable {σ ε : Type}

/-! ## The steps -/

inductive WriteOp where
  | mgr (o : Op)
  | writeAll (bytes : List UInt8)
  | flush
  | panic

def writeOps (ε : Type) : Sig where
  Op := WriteOp
  Res
    | .mgr o => ops.Res o
    | .writeAll _ | .flush => Except ε Unit
    | .panic => Empty

inductive ReadOp where
  | mgr (o : Op)
  | readExact (n : Nat)
  | panic

def readOps (ε : Type) : Sig where
  Op := ReadOp
  Res
    | .mgr o => ops.Res o
    | .readExact _ => Except ε (List UInt8)
    | .panic => Empty

/-- A step of thread `t` on manager `m`, next to a writer. -/
def execWrite (W : IoWrite σ ε) (m t : Nat) :
    (o : (writeOps ε).Op) → World × σ → Except Stop ((writeOps ε).Res o × World × σ)
  | .mgr o, (w, x) =>
    match exec m t o w with
    | .ok (r, w') => .ok (r, w', x)
    | .error e => .error e
  | .writeAll bytes, (w, x) => .ok ((W.writeAll bytes x).1, w, (W.writeAll bytes x).2)
  | .flush, (w, x) => .ok ((W.flush x).1, w, (W.flush x).2)
  | .panic, _ => .error .panic

/-- A step of thread `t` on manager `m`, next to a reader. -/
def execRead (R : IoRead σ ε) (m t : Nat) :
    (o : (readOps ε).Op) → World × σ → Except Stop ((readOps ε).Res o × World × σ)
  | .mgr o, (w, x) =>
    match exec m t o w with
    | .ok (r, w') => .ok (r, w', x)
    | .error e => .error e
  | .readExact n, (w, x) => .ok ((R.readExact n x).1, w, (R.readExact n x).2)
  | .panic, _ => .error .panic

/-- The code of the manager, next to a writer. -/
def besideWriter (ε : Type) : Emb ops (writeOps ε) where
  op o := WriteOp.mgr o
  res _ r := r

/-- The code of the manager, next to a reader. -/
def besideReader (ε : Type) : Emb ops (readOps ε) where
  op o := ReadOp.mgr o
  res _ r := r

/-! ## serialize -/

def write (bytes : List UInt8) : Prog (writeOps ε) (Except ε Unit) :=
  Prog.op (S := writeOps ε) (WriteOp.writeAll bytes)

def flush : Prog (writeOps ε) (Except ε Unit) := Prog.op (S := writeOps ε) WriteOp.flush

/-- `writer.write_all(bytes).unwrap()`. -/
def writeUnwrap (bytes : List UInt8) : Prog (writeOps ε) Unit := do
  match ← write bytes with
  | .ok _ => return ()
  | .error _ => .step (S := writeOps ε) WriteOp.panic Empty.elim

def writeBufferRec (g : Consts) : Nat → Bdd → Prog (writeOps ε) Unit
  | 0, _ => (spinLoop : Prog ops Unit).lift (besideWriter ε)
  | n + 1, bdd =>
    if bdd = g.trueId ∨ bdd = g.falseId then return ()
    else do
      let low : Bdd ← (step (.acc (.low bdd))).lift (besideWriter ε)
      writeBufferRec g n low
      let high : Bdd ← (step (.acc (.high bdd))).lift (besideWriter ε)
      writeBufferRec g n high
      writeUnwrap (toBeBytes (addr bdd))
      let level : UInt64 ← (step (.acc (.level bdd))).lift (besideWriter ε)
      writeUnwrap (toBeBytes level)
      let low : Bdd ← (step (.acc (.low bdd))).lift (besideWriter ε)
      writeUnwrap (toBeBytes (addr low))
      let high : Bdd ← (step (.acc (.high bdd))).lift (besideWriter ε)
      writeUnwrap (toBeBytes (addr high))

/-- `serialize`; `?` returns the error. -/
def serialize (g : Consts) (bdd : Bdd) (n : Nat) : Prog (writeOps ε) (Except ε Unit) := do
  match ← write (toBeBytes (addr g.falseId)) with
  | .error e => return .error e
  | .ok _ =>
    match ← write (toBeBytes (addr g.trueId)) with
    | .error e => return .error e
    | .ok _ => do
      writeBufferRec g n bdd
      match ← flush with
      | .error e => return .error e
      | .ok _ => return .ok ()

/-! ## deserialize -/

/-- `AHashMap<usize, Bdd>`. -/
abbrev IdMap := AList fun _ : UInt64 => Bdd

def readExact (n : Nat) : Prog (readOps ε) (Except ε (List UInt8)) :=
  Prog.op (S := readOps ε) (ReadOp.readExact n)

/-- `usize::from_be_bytes` of the `i`-th eight bytes of the window. -/
def word (window : List UInt8) (i : Nat) : UInt64 := fromBeBytes ((window.drop (8 * i)).take 8)

/-- `*map.get(&id).unwrap()`. -/
def getUnwrap (map : IdMap) (id : UInt64) : Prog (readOps ε) Bdd :=
  match map.lookup id with
  | some b => return b
  | none => .step (S := readOps ε) ReadOp.panic Empty.elim

/-- `debug_assert!(c)`; `debug` says whether the profile has these assertions, as `dev` does. -/
def debugAssert (debug : Bool) (c : Prop) [Decidable c] : Prog (readOps ε) Unit :=
  if debug = true ∧ ¬ c then .step (S := readOps ε) ReadOp.panic Empty.elim else return ()

/-- The loop over the records, as long as one can be read. -/
def readNodes (debug : Bool) (g : Consts) : Nat → IdMap → Bdd → Prog (readOps ε) (IdMap × Bdd)
  | 0, _, _ => (spinLoop : Prog ops _).lift (besideReader ε)
  | n + 1, map, ret => do
    match ← readExact 32 with
    | .error _ => return (map, ret)
    | .ok window =>
      let bdd := word window 0
      let level := word window 1
      debugAssert debug (level.toNat ≤ g.numVars)
      let low := word window 2
      let high := word window 3
      let mappedLow ← getUnwrap map low
      let mappedHigh ← getUnwrap map high
      let ret : Bdd ← (step (.makeNode level mappedLow mappedHigh)).lift (besideReader ε)
      (refBdd ret).lift (besideReader ε)
      readNodes debug g n (map.insert bdd ret) ret

/-- `for b in map.values() { self.deref_bdd(*b) }`; the counters do not mind the order. -/
def derefAll : List Bdd → Prog ops Unit
  | [] => return ()
  | b :: l => do
    derefBdd b
    derefAll l

/-- `deserialize`; the read guard is dropped wherever it returns. -/
def deserialize (debug : Bool) (g : Consts) (n : Nat) : Prog (readOps ε) (Except ε Bdd) := do
  let _ : Unit ← (step .read).lift (besideReader ε)
  let header ← readExact 16
  match header with
  | .error e => do
    let _ : Unit ← (step .dropRead).lift (besideReader ε)
    return .error e
  | .ok window => do
    let falseId := word window 0
    let trueId := word window 1
    let (map, ret) ← readNodes debug g n (((∅ : IdMap).insert falseId g.falseId).insert trueId g.trueId) 0
    (derefAll (map.entries.map Sigma.snd)).lift (besideReader ε)
    (refBdd ret).lift (besideReader ε)
    let _ : Unit ← (step .dropRead).lift (besideReader ε)
    return .ok ret

/-! ## print -/

/-- `f.write_fmt(format_args!("{}", s))?`, the UTF-8 bytes of the characters. -/
def writeFmt (s : List Char) : Prog (writeOps ε) (Except ε Unit) :=
  write (s.flatMap String.utf8EncodeChar)

/-- One `write_fmt` for each character. -/
def writeChars : List Char → Prog (writeOps ε) (Except ε Unit)
  | [] => return .ok ()
  | c :: l => do
    match ← writeFmt [c] with
    | .error e => return .error e
    | .ok _ => writeChars l

/-- `chars[i] = c`. -/
def setChar (chars : List Char) (i : Nat) (c : Char) : Prog (writeOps ε) (List Char) :=
  if i < chars.length then return chars.set i c
  else .step (S := writeOps ε) WriteOp.panic Empty.elim

/-- `fmt_rec`; the buffer, which the calls share, is returned. -/
def fmtRec (g : Consts) : Nat → List Char → Bdd → Nat → Prog (writeOps ε) (Except ε (List Char))
  | 0, _, _, _ => (spinLoop : Prog ops _).lift (besideWriter ε)
  | n + 1, chars, bdd, curr =>
    if curr = g.numVars then do
      match ← writeChars (chars.take g.numVars) with
      | .error e => return .error e
      | .ok _ => do
        match ← writeFmt ['\n'] with
        | .error e => return .error e
        | .ok _ => return .ok chars
    else do
      let level : UInt64 ← (step (.acc (.level bdd))).lift (besideWriter ε)
      if curr < level.toNat ∨ bdd = g.trueId then do
        let chars ← setChar chars curr '*'
        fmtRec g n chars bdd (curr + 1)
      else do
        let low : Bdd ← (step (.acc (.low bdd))).lift (besideWriter ε)
        let high : Bdd ← (step (.acc (.high bdd))).lift (besideWriter ε)
        let res ← (
          if low ≠ g.falseId then do
            let chars ← setChar chars curr '0'
            fmtRec g n chars low (curr + 1)
          else return .ok chars : Prog (writeOps ε) (Except ε (List Char)))
        match res with
        | .error e => return .error e
        | .ok chars =>
          if high ≠ g.falseId then do
            let chars ← setChar chars curr '1'
            fmtRec g n chars high (curr + 1)
          else return .ok chars

def print (g : Consts) (bdd : Bdd) (n : Nat) : Prog (writeOps ε) (Except ε Unit) :=
  if bdd = g.falseId then writeFmt ['F', 'A', 'L', 'S', 'E', '\n']
  else if bdd = g.trueId then writeFmt ['T', 'R', 'U', 'E', '\n']
  else do
    match ← fmtRec g n (List.replicate g.numVars '-') bdd 0 with
    | .error e => return .error e
    | .ok _ => return .ok ()

end Manager

end Tobdd
