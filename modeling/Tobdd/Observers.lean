import Tobdd.Io
import Tobdd.Lib.Watch
import Tobdd.MarkBound
import Tobdd.ThreadSafety

/-!
# serialize and print next to other threads

`serialize` and `print` take no guard, so they may read nodes while another thread marks them.

    asks_code: all that they read is in the diagram of their handle
    Sees.view: which stays as it is, but for marks, while they look
    observers_alone: they read no mark and write what they would write alone, if nobody holds the
                     write guard when they read a level
    print_marked: ... and not if somebody does
-/

namespace Tobdd

open Resume Diagram

namespace Manager

/-- The calls that only look. -/
inductive Look where
  | serialize (bdd : Bdd)
  | print (bdd : Bdd)

def Look.bdd : Look → Bdd
  | .serialize bdd | .print bdd => bdd

def Look.code {ε : Type} (g : Consts) (n : Nat) : Look → Prog (writeOps ε) (Except ε Unit)
  | .serialize bdd => Manager.serialize g bdd n
  | .print bdd => Manager.print g bdd n

namespace WriteOp

/-- A field of a node in `S` is read, or something is written. -/
inductive Looks (S : Bdd → Prop) : WriteOp → Prop
  | level {a : Bdd} : S a → Looks S (.mgr (.acc (.level a)))
  | low {a : Bdd} : S a → Looks S (.mgr (.acc (.low a)))
  | high {a : Bdd} : S a → Looks S (.mgr (.acc (.high a)))
  | spinLoop : Looks S (.mgr .spinLoop)
  | writeAll (bytes : List UInt8) : Looks S (.writeAll bytes)
  | flush : Looks S .flush
  | panic : Looks S .panic

def IsLevel : WriteOp → Prop
  | .mgr (.acc (.level _)) => True
  | _ => False

end WriteOp

/-- The children are as in `h`. -/
def Shows {ε : Type} (h : Heap) : (o : (writeOps ε).Op) → (writeOps ε).Res o → Prop
  | .mgr (.acc (.low a)), r => r = (h.get a).low
  | .mgr (.acc (.high a)), r => r = (h.get a).high
  | _, _ => True

/-- No mark is read. -/
def Unmarked {ε : Type} : (o : (writeOps ε).Op) → (writeOps ε).Res o → Prop
  | .mgr (.acc (.level _)), r =>
    let level : UInt64 := r
    level &&& MARK = 0
  | _, _ => True

/-- The diagram of `f` is in `h'` as it is in `h`, but for marks. -/
def Stays (h : Heap) (f : Bdd) (h' : Heap) : Prop :=
  ∀ a, h.Reaches f a → h'.Has a ∧ (h.get a).Same (h'.get a)

/-- ... and without marks. -/
def Plain (h : Heap) (f : Bdd) (h' : Heap) : Prop :=
  ∀ a, h.Reaches f a → h'.Has a ∧ (h.get a).Same (h'.get a) ∧ ¬ (h'.get a).Marked

/-- `gc` up to the end of the marking. -/
def gcMarks (n : Nat) : Prog ops (Option Nat) := do
  let ok : Bool ← step .tryPending
  if ok then do
    let _ : Unit ← step .awaitReaders
    let marked ← marks n
    return some marked
  else
    return none

/-- ... and from there on. -/
def gcMarked (n : Nat) : Option Nat → Prog ops Nat
  | some marked => do
    (LockFreeSet.gcUnmarked n).lift cleaner
    (LockFreeSet.unmarkNodes n).lift cleaner
    invalidateCaches
    let _ : Unit ← step .dropWrite
    return marked
  | none => return 0

theorem gc_eq (n : Nat) : gc n = gcMarks n >>= gcMarked n := by
  unfold gc gcMarks
  refine Eq.trans (congrArg (Prog.bind _) (funext fun ok => ?_)) (Prog.bind_assoc ..).symm
  cases ok with
  | false => rfl
  | true =>
    refine congrArg (Prog.bind (step .awaitReaders)) (funext fun _ => ?_)
    have hback := Prog.bind_assoc (marks n) (fun marked => .ret (some marked)) (gcMarked n)
    refine Eq.trans ?_ hback.symm
    unfold collect
    refine (Prog.bind_assoc ..).trans (congrArg (Prog.bind (marks n)) (funext fun marked => ?_))
    refine (Prog.bind_assoc ..).trans (congrArg (Prog.bind _) (funext fun _ => ?_))
    refine (Prog.bind_assoc ..).trans (congrArg (Prog.bind _) (funext fun _ => ?_))
    exact Prog.bind_assoc ..

section
variable {σ ε α : Type} {g : Consts} {m t : Nat} {h : Heap} {w : World} {a b : Bdd} {f : BoolFn}

/-! ## What they read -/

section asks
variable {J : (o : (writeOps ε).Op) → (writeOps ε).Res o → Prop} {S : Bdd → Prop}

theorem asks_field {o : Access} {k : mem.Res o → Prog (writeOps ε) α}
    (ho : WriteOp.Looks S (.mgr (.acc o))) (hk : ∀ v, J (.mgr (.acc o)) v → (k v).Asks J (WriteOp.Looks S)) :
    ((step (.acc o)).lift (besideWriter ε) >>= k).Asks J (WriteOp.Looks S) := ⟨ho, hk⟩

theorem asks_write (bytes : List UInt8) {k : Except ε Unit → Prog (writeOps ε) α}
    (hk : ∀ r, (k r).Asks J (WriteOp.Looks S)) : (write bytes >>= k).Asks J (WriteOp.Looks S) :=
  ⟨.writeAll bytes, fun r _ => hk r⟩

theorem asks_writeUnwrap (bytes : List UInt8) : (writeUnwrap bytes : Prog (writeOps ε) Unit).Asks J (WriteOp.Looks S) := by
  refine asks_write bytes fun r => ?_
  cases r with
  | ok _ => trivial
  | error _ => exact ⟨.panic, fun r => r.elim⟩

theorem asks_writeChars (l : List Char) : (writeChars l : Prog (writeOps ε) _).Asks J (WriteOp.Looks S) := by
  induction l with
  | nil => trivial
  | cons c l ih =>
    refine asks_write _ fun r => ?_
    cases r with
    | ok _ => exact ih
    | error _ => trivial

theorem asks_setChar (chars : List Char) (i : Nat) (c : Char) :
    (setChar chars i c : Prog (writeOps ε) _).Asks J (WriteOp.Looks S) :=
  .ite _ (fun _ => trivial) fun _ => ⟨.panic, fun r => r.elim⟩

end asks

/-- An inner node and its children. -/
theorem inner_children (hT : h.Has g.trueId) (hF : h.Has g.falseId) (hd : g.Denotes h a f)
    (ha : ¬ (a = g.trueId ∨ a = g.falseId)) :
    (h.Child a (h.get a).low ∧ ∃ f₀, g.Denotes h (h.get a).low f₀) ∧
    h.Child a (h.get a).high ∧ ∃ f₁, g.Denotes h (h.get a).high f₁ := by
  have hhas : ∀ {c : Bdd} {f : BoolFn}, Diagram.Denotes (g.graph h) c f → h.Has c := by
    intro c f hc
    cases hc with
    | top => exact hT
    | bot => exact hF
    | node hn _ _ => exact hn.1
  cases hd with
  | top => exact absurd (Or.inl rfl) ha
  | bot => exact absurd (Or.inr rfl) ha
  | node hn h₀ h₁ =>
    exact ⟨⟨⟨hn.1, hhas h₀, Or.inl rfl⟩, _, h₀⟩, ⟨hn.1, hhas h₁, Or.inr rfl⟩, _, h₁⟩

section
variable (hT : h.Has g.trueId) (hF : h.Has g.falseId)
include hT hF

theorem asks_writeBufferRec : ∀ n a f, g.Denotes h a f → h.Reaches b a →
    (writeBufferRec g n a : Prog (writeOps ε) Unit).Asks (Shows h) (WriteOp.Looks (h.Reaches b)) := by
  intro n
  induction n with
  | zero => exact fun a f hd hr => ⟨.spinLoop, fun r => r.elim⟩
  | succ n ih =>
    intro a f hd hr
    unfold writeBufferRec
    refine .ite _ (fun _ => trivial) fun ha => ?_
    obtain ⟨⟨hl, f₀, hdl⟩, hh, f₁, hdh⟩ := inner_children hT hF hd ha
    refine asks_field (o := .low a) (.low hr) fun low hlow => ?_
    obtain rfl : low = (h.get a).low := hlow
    refine (ih _ f₀ hdl (hr.tail hl)).bind fun _ => ?_
    refine asks_field (o := .high a) (.high hr) fun high hhigh => ?_
    obtain rfl : high = (h.get a).high := hhigh
    refine (ih _ f₁ hdh (hr.tail hh)).bind fun _ => ?_
    refine (asks_writeUnwrap _).bind fun _ => asks_field (o := .level a) (.level hr) fun level _ => ?_
    refine (asks_writeUnwrap _).bind fun _ => asks_field (o := .low a) (.low hr) fun low _ => ?_
    refine (asks_writeUnwrap _).bind fun _ => asks_field (o := .high a) (.high hr) fun high _ => ?_
    exact asks_writeUnwrap _

theorem asks_serialize (n : Nat) (hd : g.Denotes h b f) :
    (serialize g b n : Prog (writeOps ε) _).Asks (Shows h) (WriteOp.Looks (h.Reaches b)) := by
  unfold serialize
  refine asks_write _ fun r => ?_
  cases r with
  | error _ => trivial
  | ok _ =>
    refine asks_write _ fun r => ?_
    cases r with
    | error _ => trivial
    | ok _ =>
      refine (asks_writeBufferRec hT hF n b f hd .refl).bind fun _ => ⟨.flush, fun r _ => ?_⟩
      cases r with
      | error _ => trivial
      | ok _ => trivial

theorem asks_fmtRec : ∀ n chars a curr f, g.Denotes h a f → a ≠ g.falseId → h.Reaches b a →
    (fmtRec g n chars a curr : Prog (writeOps ε) _).Asks (Shows h) (WriteOp.Looks (h.Reaches b)) := by
  intro n
  induction n with
  | zero => exact fun chars a curr f hd hne hr => ⟨.spinLoop, fun r => r.elim⟩
  | succ n ih =>
    intro chars a curr f hd hne hr
    unfold fmtRec
    refine .ite _ (fun _ => ?_) fun _ => ?_
    · refine (asks_writeChars _).bind fun r => ?_
      cases r with
      | error _ => trivial
      | ok _ =>
        refine asks_write _ fun r => ?_
        cases r with
        | error _ => trivial
        | ok _ => trivial
    · refine asks_field (o := .level a) (.level hr) fun level _ => .ite _ (fun _ => ?_) fun ha => ?_
      · exact (asks_setChar ..).bind fun chars => ih chars a (curr + 1) f hd hne hr
      · have ha : ¬ (a = g.trueId ∨ a = g.falseId) :=
          not_or.mpr ⟨fun hT => ha (Or.inr hT), hne⟩
        obtain ⟨⟨hl, f₀, hdl⟩, hh, f₁, hdh⟩ := inner_children hT hF hd ha
        refine asks_field (o := .low a) (.low hr) fun low hlow => ?_
        obtain rfl : low = (h.get a).low := hlow
        refine asks_field (o := .high a) (.high hr) fun high hhigh => ?_
        obtain rfl : high = (h.get a).high := hhigh
        refine Prog.Asks.bind (.ite _ (fun hne => ?_) fun _ => trivial) fun r => ?_
        · exact (asks_setChar ..).bind fun chars => ih chars _ (curr + 1) f₀ hdl hne (hr.tail hl)
        · cases r with
          | error _ => trivial
          | ok chars =>
            refine .ite _ (fun hne => ?_) fun _ => trivial
            exact (asks_setChar ..).bind fun chars => ih chars _ (curr + 1) f₁ hdh hne (hr.tail hh)

theorem asks_print (n : Nat) (hd : g.Denotes h b f) :
    (print g b n : Prog (writeOps ε) _).Asks (Shows h) (WriteOp.Looks (h.Reaches b)) := by
  unfold print
  refine .ite _ (fun _ => ?_) fun hne => .ite _ (fun _ => ?_) fun _ => ?_
  · exact asks_write (k := Prog.ret) _ fun _ => trivial
  · exact asks_write (k := Prog.ret) _ fun _ => trivial
  · refine (asks_fmtRec hT hF n _ b 0 f hd hne .refl).bind fun r => ?_
    cases r with
    | error _ => trivial
    | ok _ => trivial

/-- **All that is read is in the diagram of the handle.** -/
theorem asks_code (c : Look) (n : Nat) (hd : g.Denotes h c.bdd f) :
    (c.code g n : Prog (writeOps ε) _).Asks (Shows h) (WriteOp.Looks (h.Reaches c.bdd)) := by
  cases c with
  | serialize a => exact asks_serialize hT hF n hd
  | print a => exact asks_print hT hF n hd

end

/-- `print` begins with a level. -/
theorem print_inner (n : Nat) (hF : a ≠ g.falseId) (hT : a ≠ g.trueId) (hn : g.numVars ≠ 0) :
    ∃ k : UInt64 → Prog (writeOps ε) (Except ε Unit),
      print g a (n + 1) = .step (S := writeOps ε) (.mgr (.acc (.level a))) k := by
  unfold print
  rw [if_neg hF, if_neg hT]
  unfold fmtRec
  rw [if_neg hn.symm]
  exact ⟨_, rfl⟩

/-! ## What they are answered -/

/-- A step of thread `t` that looks on: the writer changes, the memory does not. -/
def look (W : IoWrite σ ε) (m t : Nat) (o : (writeOps ε).Op) (w : World) (x : σ) :
    Except Stop ((writeOps ε).Res o × σ) :=
  match execWrite W m t o (w, x) with
  | .ok (r, _, x') => .ok (r, x')
  | .error e => .error e

section
variable {W : IoWrite σ ε} {w' : World} {o : (writeOps ε).Op} {r : (writeOps ε).Res o} {x x' : σ}
  {e : Stop}

theorem Plain.stays {h' : Heap} (hp : Plain h b h') : Stays h b h' := fun a ha =>
  ⟨(hp a ha).1, (hp a ha).2.1⟩

/-- A field of a node is read. -/
theorem execWrite_field {o : Access} {v : mem.Res o}
    (he : Store.exec t o (w.store m) = .ok (v, w.store m)) :
    execWrite W m t (.mgr (.acc o)) (w, x) = .ok (v, w, x) := by
  simp only [execWrite, exec, he, World.put_self]

section
variable (hhas : w.heap.Has a)
include hhas

theorem execWrite_level :
    execWrite W m t (.mgr (.acc (.level a))) (w, x) = .ok ((w.heap.get a).level, w, x) :=
  execWrite_field (o := .level a) (Store.exec_field (s := w.store m) hhas rfl)

theorem execWrite_low :
    execWrite W m t (.mgr (.acc (.low a))) (w, x) = .ok ((w.heap.get a).low, w, x) :=
  execWrite_field (o := .low a) (Store.exec_field (s := w.store m) hhas rfl)

theorem execWrite_high :
    execWrite W m t (.mgr (.acc (.high a))) (w, x) = .ok ((w.heap.get a).high, w, x) :=
  execWrite_field (o := .high a) (Store.exec_field (s := w.store m) hhas rfl)

end

/-- What looks changes nothing. -/
theorem execWrite_looks (ho : WriteOp.Looks (h.Reaches b) o) (hs : Stays h b w.heap) :
    execWrite W m t o (w, x) = (look W m t o w x).map fun y => (y.1, w, y.2) := by
  unfold look
  cases ho with
  | level ha =>
    rw [execWrite_level (hs _ ha).1]
    rfl
  | low ha =>
    rw [execWrite_low (hs _ ha).1]
    rfl
  | high ha =>
    rw [execWrite_high (hs _ ha).1]
    rfl
  | spinLoop | writeAll _ | flush | panic => rfl

theorem look_shows (ho : WriteOp.Looks (h.Reaches b) o) (hs : Stays h b w.heap)
    (he : look W m t o w x = .ok (r, x')) : Shows h o r := by
  unfold look at he
  cases ho with
  | level ha => trivial
  | low ha =>
    rw [execWrite_low (hs _ ha).1] at he
    obtain ⟨rfl, -⟩ := Prod.mk.inj (Except.ok.inj he)
    exact (hs _ ha).2.low
  | high ha =>
    rw [execWrite_high (hs _ ha).1] at he
    obtain ⟨rfl, -⟩ := Prod.mk.inj (Except.ok.inj he)
    exact (hs _ ha).2.high
  | spinLoop | writeAll _ | flush | panic => trivial

theorem look_unmarked (ho : WriteOp.Looks (h.Reaches b) o) (hp : o.IsLevel → Plain h b w.heap)
    (he : look W m t o w x = .ok (r, x')) : Unmarked o r := by
  unfold look at he
  cases ho with
  | level ha =>
    obtain ⟨hhas, -, hmark⟩ := hp trivial _ ha
    rw [execWrite_level hhas] at he
    obtain ⟨rfl, -⟩ := Prod.mk.inj (Except.ok.inj he)
    exact not_not.mp hmark
  | low _ | high _ | spinLoop | writeAll _ | flush | panic => trivial

/-- **Without a mark the answer is that of the diagram alone.** -/
theorem look_plain (ho : WriteOp.Looks (h.Reaches b) o) (hs : Stays h b w.heap)
    (hp : Plain h b w'.heap) (hu : Unmarked o r) (he : look W m t o w x = .ok (r, x')) :
    look W m t o w' x = .ok (r, x') := by
  unfold look at he ⊢
  cases ho with
  | @level a ha =>
    obtain ⟨hhas, hsame, hmark⟩ := hp _ ha
    rw [execWrite_level (hs _ ha).1] at he
    obtain ⟨rfl, rfl⟩ := Prod.mk.inj (Except.ok.inj he)
    have hlevel : (w'.heap.get a).level = (w.heap.get a).level := by
      rw [← unmark_of_not_marked (not_not.mp hmark), hsame.level, ← (hs _ ha).2.level]
      exact unmark_of_not_marked hu
    rw [execWrite_level hhas, hlevel]
  | low ha =>
    obtain ⟨hhas, hsame, -⟩ := hp _ ha
    rw [execWrite_low (hs _ ha).1] at he
    rw [execWrite_low hhas, hsame.low, ← (hs _ ha).2.low]
    exact he
  | high ha =>
    obtain ⟨hhas, hsame, -⟩ := hp _ ha
    rw [execWrite_high (hs _ ha).1] at he
    rw [execWrite_high hhas, hsame.high, ← (hs _ ha).2.high]
    exact he
  | spinLoop | writeAll _ | flush | panic => exact he

/-- What cannot be answered cannot be answered alone. -/
theorem look_error (ho : WriteOp.Looks (h.Reaches b) o) (hs : Stays h b w.heap)
    (he : look W m t o w x = .error e) : look W m t o w' x = .error e := by
  unfold look at he ⊢
  cases ho with
  | level ha =>
    rw [execWrite_level (hs _ ha).1] at he
    cases he
  | low ha =>
    rw [execWrite_low (hs _ ha).1] at he
    cases he
  | high ha =>
    rw [execWrite_high (hs _ ha).1] at he
    cases he
  | spinLoop | writeAll _ | flush | panic => exact he

/-- A program that looks, next to a writer. -/
theorem run_looks {p : Prog (writeOps ε) α} (hs : Stays h b w.heap) :
    ∀ {x}, p.Asks (Shows h) (WriteOp.Looks (h.Reaches b)) →
      run (execWrite W m t) p (w, x) =
        (run (fun o => look W m t o w) p x).map fun y => (y.1, w, y.2) := by
  induction p with
  | ret a => exact fun _ => rfl
  | step o k ih =>
    intro x hp
    simp only [run, execWrite_looks hp.1 hs]
    cases he : look W m t o w x with
    | error e => rfl
    | ok y => exact ih y.1 (hp.2 y.1 (look_shows hp.1 hs he))

end

end

end Manager

namespace ManagerThreads

open Manager (Op Look writeOps ops WriteOp execWrite look gcMarks gcMarked Shows Unmarked Stays Plain fresh x0
  x1)

/-- Threads that serialize or print a handle that they hold, each to a writer of its own. -/
def observers {σ ε : Type} (W : IoWrite σ ε) (g : Consts) (m : Nat) :
    Onlookers (writeOps ε) Shared Nat σ Look (Except ε Unit) where
  look t o x := look W m t o x.world
  code _ c n := c.code g n
  legal t c x := x.Holds g t c.bdd

/-- What thread `t` sees of the handle `a`, since the state `x`. -/
structure View (g : Consts) (m n t : Nat) (a : Bdd) (x x' : Shared) : Prop where
  inv : Inv g m n x'
  holds : x'.Holds g t a
  stays : Stays x.world.heap a x'.world.heap

section
variable {σ ε : Type} {W : IoWrite σ ε} {g : Consts} {m n t k : Nat} {x₀ x x' x₁ : Shared} {a : Bdd}
  {c : Look} {y : σ} {l : List (Shared × Resume.Answer (writeOps ε))}
  {s : Scene ops (writeOps ε) Shared Nat Call Ret σ Look (Except ε Unit)}

theorem View.rely (h : View g m n t a x x') (hr : Rely g m n t x' x₁) : View g m n t a x x₁ where
  inv := hr.inv
  holds := h.holds.imp_left (hr.refs a)
  stays b hb := by
    have hb' := Heap.Reaches.congr hb h.stays
    obtain ⟨hhas, hsame⟩ := hr.same a h.holds b hb'
    exact ⟨hhas, (h.stays b hb).2.trans hsame⟩

theorem View.start {s : Conf ops Shared Nat Call Ret} (hinv : Inv g m n x₀)
    (hidle : ∀ t, Place g m n t 0 none x₀)
    (hs : (clients g m n).Reach (Shared.Fits g m n) x₀ s) (hl : s.world.Holds g t a) :
    View g m n t a s.world s.world := by
  obtain ⟨hi, -⟩ := (proof g m n).sound hinv hidle hs
  have hi : Inv g m n s.world := hi
  exact ⟨hi, hl, fun b hb => ⟨hb.has (hi.has a (holds_count hl)), .refl _⟩⟩

/-- **Nothing is marked while nobody holds the write guard.** -/
theorem View.plain (h : View g m n t a x x') (hq : x'.Quiet m) :
    Plain x.world.heap a x'.world.heap := by
  intro b hb
  obtain ⟨hhas, hsame⟩ := h.stays b hb
  have hlive := h.inv.live hq (holds_count h.holds)
  have hn := (h.inv.now hq).table
  have hb' := hn.markable.reaches hlive (Heap.Reaches.congr hb h.stays)
  exact ⟨hhas, hsame, hn.nodes.unmarked b hb'⟩

/-- What is referenced stands for a function. -/
theorem Reach.means {s : Conf ops Shared Nat Call Ret} (hinv : Inv g m n x₀)
    (hidle : ∀ t, Place g m n t 0 none x₀)
    (h : (clients g m n).Reach (Shared.Fits g m n) x₀ s) :
    ∀ a, s.world.count g a ≠ 0 → ∃ f, s.world.Means g a f := by
  have hquiet : ∀ {x : Shared}, Inv g m n x → x.Quiet m → ∀ a, x.count g a ≠ 0 → ∃ f, x.Means g a f :=
    fun hi hq a ha => (hi.now hq).table.nodes.denotes (hi.live hq ha)
  induction h with
  | init =>
    refine hquiet hinv fun t ht => ?_
    cases ((hidle t).writer true).mp ht
  | @step s s' hreach hstep hfit ih =>
    obtain ⟨hi, hat⟩ := (proof g m n).sound hinv hidle hreach
    obtain ⟨t, hg⟩ := Proved.guar ⟨hi, hat⟩ hstep hfit
    intro a ha
    by_cases hq : s'.world.Quiet m
    · exact hquiet hg.inv hq a ha
    · have ha' := hg.old hq a ha
      obtain ⟨f, hf⟩ := ih a ha'
      exact ⟨f, (hg.keeps a ha').2 f hf⟩

section
variable (hinv : Inv g m n x₀) (hidle : ∀ t, Place g m n t 0 none x₀)
  (h : (observers W g m).Sees (clients g m n) (Shared.Fits g m n) x₀ t c k y x l s)
include hinv hidle h

theorem Sees.view : View g m n t c.bdd x s.conf.world :=
  h.keeps (proof g m n) hinv hidle (V := View g m n t c.bdd)
    (fun _ hs hl => View.start hinv hidle hs hl) fun _ _ _ hv hr => hv.rely (hr hv.inv)

theorem Sees.plain (hx : x.Quiet m) : Plain x.world.heap c.bdd x.world.heap := by
  refine h.keeps (proof g m n) hinv hidle (V := fun x _ => x.Quiet m →
    Plain x.world.heap c.bdd x.world.heap) ?_ (fun _ _ _ hv _ => hv) hx
  intro s hs hl hx
  exact (View.start hinv hidle hs hl).plain hx

/-- The handle stands for a function from the start. -/
theorem Sees.code : (c.code g k : Prog (writeOps ε) _).Asks (Shows x.world.heap)
    (WriteOp.Looks (x.world.heap.Reaches c.bdd)) := by
  refine h.keeps (proof g m n) hinv hidle (V := fun x _ => (c.code g k : Prog (writeOps ε) _).Asks
    (Shows x.world.heap) (WriteOp.Looks (x.world.heap.Reaches c.bdd))) ?_ fun _ _ _ hv _ => hv
  intro s hs hl
  obtain ⟨hi, -⟩ := (proof g m n).sound hinv hidle hs
  have hi : Inv g m n s.world := hi
  obtain ⟨f, hf⟩ := Reach.means hinv hidle hs c.bdd (holds_count hl)
  exact Manager.asks_code (hi.has_kept (kept_top g)) (hi.has_kept (kept_bot g)) c k hf

theorem Sees.asks : (∃ q y', s.watch t = some (c, q, y') ∧
      q.Asks (Shows x.world.heap) (WriteOp.Looks (x.world.heap.Reaches c.bdd))) ∧
    ∀ e ∈ l, WriteOp.Looks (x.world.heap.Reaches c.bdd) e.2.1 ∧ View g m n t c.bdd x e.1 ∧
      ∃ y y', look W m t e.2.1 e.1.world y = .ok (e.2.2, y') :=
  Onlookers.Sees.asks (Sees.code hinv hidle h) (fun _ _ hs => Sees.view hinv hidle hs)
    (fun _ _ _ _ _ ho hv he => Manager.look_shows ho hv.stays he) h

/-- **A thread that reads no mark** has come as far as it would alone, and is stuck where it would
be alone. -/
theorem Sees.alone (hu : ∀ e ∈ l, Unmarked e.2.1 e.2.2) :
    ∃ q y', s.watch t = some (c, q, y') ∧ ∀ w : World, Plain x.world.heap c.bdd w.heap →
      run (execWrite W m t) q (w, y') = run (execWrite W m t) (c.code g k) (w, y) ∧
      ∀ o r e, q = .step o r → look W m t o s.conf.world.world y' = .error e →
        run (execWrite W m t) (c.code g k) (w, y) = .error e := by
  obtain ⟨⟨q, y', hw, hasks⟩, hall⟩ := Sees.asks hinv hidle h
  refine ⟨q, y', hw, fun w hp => ?_⟩
  have halone : ∀ e ∈ l, ∀ y y', look W m t e.2.1 e.1.world y = .ok (e.2.2, y') →
      look W m t e.2.1 w y = .ok (e.2.2, y') := by
    intro e he y y' hlook
    obtain ⟨ho, hv, -⟩ := hall e he
    exact Manager.look_plain ho hv.stays hp (hu e he) hlook
  obtain ⟨q', z, hw', hrun⟩ := Onlookers.Sees.alone (fun o => look W m t o w) h halone
  obtain ⟨-, hq'⟩ := Prod.mk.inj (Option.some.inj (hw.symm.trans hw'))
  obtain ⟨rfl, rfl⟩ := Prod.mk.inj hq'
  have hrun : run (fun o => look W m t o w) q y' = run (fun o => look W m t o w) (c.code g k) y := hrun
  rw [Manager.run_looks hp.stays hasks, Manager.run_looks hp.stays (Sees.code hinv hidle h), hrun]
  refine ⟨rfl, ?_⟩
  rintro o r e rfl he
  have hv := Sees.view hinv hidle h
  rw [← hrun, run_step_error (Manager.look_error hasks.1 hv.stays he)]
  rfl

end

end

/-- **Observers next to other threads.**  Threads share a manager that was just made, the counts of
references fit into 64 bits and the arrays can grow.  Where thread `t` serializes or prints a
handle that it holds, and nobody holds the write guard when it reads a level, it reads no mark, and
what it has done and written is what it would have alone, over any memory with the diagram of the
handle as it was at the start. -/
theorem observers_alone {σ ε : Type} (W : IoWrite σ ε) {m n k t : Nat} {x₀ x : Shared} {c : Look}
    {y : σ} {l : List (Shared × Resume.Answer (writeOps ε))}
    {s : Scene ops (writeOps ε) Shared Nat Call Ret σ Look (Except ε Unit)} (h₀ : Starts m x₀)
    (hf : x₀.Fits (x₀.world.consts m) m n)
    (h : (observers W (x₀.world.consts m) m).Sees (clients (x₀.world.consts m) m n)
      (Shared.Fits (x₀.world.consts m) m n) x₀ t c k y x l s)
    (hq : ∀ e ∈ l, e.2.1.IsLevel → e.1.Quiet m) :
    (∀ e ∈ l, Unmarked e.2.1 e.2.2) ∧ (x.Quiet m → Plain x.world.heap c.bdd x.world.heap) ∧
    ∃ q y', s.watch t = some (c, q, y') ∧ ∀ w : World, Plain x.world.heap c.bdd w.heap →
      run (execWrite W m t) q (w, y') =
        run (execWrite W m t) (c.code (x₀.world.consts m) k) (w, y) ∧
      ∀ o r e, q = .step o r → look W m t o s.conf.world.world y' = .error e →
        run (execWrite W m t) (c.code (x₀.world.consts m) k) (w, y) = .error e := by
  obtain ⟨hinv, hidle⟩ := h₀.inv hf
  obtain ⟨-, hall⟩ := Sees.asks hinv hidle h
  have hunmarked : ∀ e ∈ l, Unmarked e.2.1 e.2.2 := by
    intro e he
    obtain ⟨ho, hv, _, _, hlook⟩ := hall e he
    exact Manager.look_unmarked ho (fun hl => hv.plain (hq e he hl)) hlook
  exact ⟨hunmarked, Sees.plain hinv hidle h, Sees.alone hinv hidle h hunmarked⟩

/-- The threads that print, each to a vector of its own ... -/
abbrev printers : Onlookers (writeOps Unit) Shared Nat (List UInt8) Look (Except Unit Unit) :=
  observers (vecWrite Unit) (fresh.consts 0) 0

/-- ... next to those that work on the manager of two variables. -/
abbrev Printing (a : Bdd) (x : Shared) (l : List (Shared × Resume.Answer (writeOps Unit)))
    (s : Scene ops (writeOps Unit) Shared Nat Call Ret (List UInt8) Look (Except Unit Unit)) : Prop :=
  printers.Sees (clients (fresh.consts 0) 0 60) (Shared.Fits (fresh.consts 0) 0 60) ⟨fresh, []⟩ 0
    (.print a) 8 [] x l s

instance (o : WriteOp) : Decidable o.IsLevel := by
  unfold WriteOp.IsLevel
  split <;> infer_instance

/-- The states in which a level was read. -/
def levels (l : List (Shared × Resume.Answer (writeOps Unit))) : List Shared :=
  (l.filter fun e =>
    let o : WriteOp := e.2.1
    decide o.IsLevel).map (·.1)

/-- Thread 1 drops a disjunction, thread 0 has a conjunction. -/
def owned : List (Nat × Turn Call) :=
  (1, .call (.op (.or x0 x1)) 0) :: List.replicate 14 (1, .go) ++
  (1, .call (.derefBdd 7) 0) :: List.replicate 2 (1, .go) ++
  (0, .call (.op (.and x0 x1)) 0) :: List.replicate 14 (0, .go)

/-- Thread 1 collects. -/
def collecting : List (Nat × Turn Call) :=
  (1, .call .gc 0) :: List.replicate 162 (1, .go)

set_option synthInstance.maxSize 512 in
/-- Thread 0 prints the conjunction; between two levels that it reads thread 1 collects. -/
theorem printing_run : ∃ x ∈ play owned,
    ∃ y ∈ printers.peek 0 x.2.world 2 [] (printers.code 0 (.print 9) 8) [],
    ∃ z ∈ playOn collecting x.1 x.2, ∃ u ∈ printers.peek 0 z.2.world 7 y.1 y.2.1 y.2.2,
    (x.2.pc 0).isNone ∧ (0, (9 : Bdd)) ∈ x.2.world.refs ∧
    (x.2.world.lock 0).writer = none ∧ (z.2.world.lock 0).writer = none ∧
    u.2.1.answer = some (.ok ()) ∧ u.2.2 = ['1', '1', '\n'].flatMap String.utf8EncodeChar ∧
    (∃ e ∈ levels u.1, e.world.heap.Has 7) ∧ ∃ e ∈ levels u.1, ¬ e.world.heap.Has 7 := by
  decide +kernel

theorem quiet_of_writer {x : Shared} {m : Nat} (h : (x.lock m).writer = none) : x.Quiet m := by
  intro t ht
  rw [h] at ht
  cases ht

theorem observers_alone_print : ∃ x l s, Printing 9 x l s ∧
    (∃ e ∈ levels l, e.world.heap.Has 7) ∧ (∃ e ∈ levels l, ¬ e.world.heap.Has 7) ∧
    (∀ e ∈ l, Unmarked e.2.1 e.2.2) ∧
    run (execWrite (vecWrite Unit) 0 0) (Manager.print (fresh.consts 0) 9 8) (x.world, []) =
      .ok (.ok (), x.world, ['1', '1', '\n'].flatMap String.utf8EncodeChar) := by
  obtain ⟨⟨h, s₁⟩, hown, ⟨l₁, p₁, y₁⟩, hfirst, ⟨h₂, s₂⟩, hgc, ⟨l₂, p₂, y₂⟩, hrest, hpc, hrefs, hw₁, hw₂, hend,
    hout, hbefore, hafter⟩ := printing_run
  have hidle : s₁.pc 0 = none := Option.isNone_iff_eq_none.mp hpc
  have hstart : Printing 9 s₁.world [] _ :=
    .start (.unwatched (play_runs hown).reach) hidle rfl (Or.inl hrefs)
  obtain ⟨hs₁, hl₁⟩ := hstart.peek 2 (by simp only [Function.update_self]) hfirst
  rw [Function.update_idem] at hs₁
  -- only thread 0 looks on
  have hwatch : ∀ v : Nat, v ≠ 0 →
      Function.update (fun _ : Nat => none) 0 (some (Look.print 9, p₁, y₁)) v = none :=
    fun v hv => Function.update_of_ne hv ..
  have hothers : ∀ e ∈ collecting, e.1 ≠ 0 := by decide +kernel
  obtain ⟨hs₂, -⟩ := hs₁.follow (fun t c x hl => (of_decide_eq_true hl : c.Legal (fresh.consts 0) t x))
    (fun x hx => (of_decide_eq_true hx : Small 0 60 x).fits)
    (fun v hv => (not_imp_comm.mp (hwatch v) hv) ▸ hidle) collecting
    (fun e he => hwatch e.1 (hothers e he)) hgc
  obtain ⟨hs₃, hl₂⟩ := hs₂.peek 7 (by simp only [Function.update_self]) hrest
  have hquiet : ∀ e ∈ l₂, e.1.Quiet 0 := by
    intro e he
    obtain he | he := hl₂ e he
    · obtain he | he := hl₁ e he
      · cases he
      · exact he ▸ quiet_of_writer hw₁
    · exact he ▸ quiet_of_writer hw₂
  obtain ⟨hunmarked, hplain, q, y', hq, halone⟩ := observers_alone (vecWrite Unit) fresh_starts
    fresh_fits hs₃ fun e he _ => hquiet e he
  simp only [Function.update_self, Option.some.injEq, Prod.mk.injEq, true_and] at hq
  obtain ⟨rfl, rfl⟩ := hq
  refine ⟨_, _, _, hs₃, hbefore, hafter, hunmarked, ?_⟩
  obtain rfl : p₂ = .ret (.ok ()) := Prog.eq_ret hend
  obtain rfl : y₂ = ['1', '1', '\n'].flatMap String.utf8EncodeChar := hout
  exact (halone s₁.world.world (hplain (quiet_of_writer hw₁))).1.symm

/-! ## A mark is read -/

/-- The manager of two variables, when thread 1 has marked its nodes. -/
@[irreducible] def marking : Shared :=
  match run (exec 0 1) (gcMarks 60) ⟨fresh, []⟩ with
  | .ok (_, x) => x
  | .error _ => ⟨fresh, []⟩

theorem marking_run :
    (run (exec 0 1) (gcMarks 60) ⟨fresh, []⟩).toOption.isSome ∧
    Along (exec 0 1) (fun _ => Small 0 60) (gcMarks 60) ⟨fresh, []⟩ ∧ Small 0 60 marking ∧
    Small 0 60 ⟨fresh, []⟩ := by
  decide +kernel

/-- Thread 1 comes that far in `gc`. -/
theorem marking_reached : ∃ s,
    (clients (fresh.consts 0) 0 60).Reach (Shared.Fits (fresh.consts 0) 0 60) ⟨fresh, []⟩ s ∧
      s.pc 0 = none ∧ s.world = marking := by
  obtain ⟨hok, hal, hsmall, hsmall₀⟩ := marking_run
  obtain ⟨b, hrun⟩ : ∃ b, run (exec 0 1) (gcMarks 60) ⟨fresh, []⟩ = .ok (b, marking) := by
    unfold marking
    cases hr : run (exec 0 1) (gcMarks 60) ⟨fresh, []⟩ with
    | ok y => exact ⟨y.1, rfl⟩
    | error e =>
      rw [hr] at hok
      cases hok
  have hcode : code (fresh.consts 0) 60 .gc = gcMarks 60 >>= fun o =>
      gcMarked 60 o >>= fun marked => return Ret.marked marked := by
    show (Manager.gc 60 >>= fun marked => return Ret.marked marked) = _
    rw [Manager.gc_eq]
    exact Prog.bind_assoc ..
  have h0 : (clients (fresh.consts 0) 0 60).Within (Shared.Fits (fresh.consts 0) 0 60) ⟨fresh, []⟩ 1 .gc
      60 [] _ := .enter .init rfl trivial hsmall₀.fits
  have hpc : Function.update (fun _ : Nat => none) 1 (some (Call.gc, code (fresh.consts 0) 60 .gc)) 1 =
      some (Call.gc, gcMarks 60 >>= fun o => gcMarked 60 o >>= fun marked => return Ret.marked marked) := by
    rw [Function.update_self, hcode]
  obtain ⟨h, -, hs⟩ := System.Within.part 1 Call.gc (fun o => gcMarked 60 o >>=
    fun marked => return Ret.marked marked) b (gcMarks 60) marking h0 hpc hrun
    (hal.mono fun _ _ h => h.fits) hsmall.fits
  exact ⟨_, hs.reach, rfl, rfl⟩

/-- What thread 0 prints for the first variable over `w`, to a vector. -/
def printed (w : World) : Except Stop (Except Unit Unit × List UInt8) :=
  run (fun o => look (vecWrite Unit) 0 0 o w) (Manager.print (fresh.consts 0) x0 8) []

theorem printed_marked : printed marking.world =
    .ok (.ok (), ['*', '*', '\n'].flatMap String.utf8EncodeChar) := by
  decide +kernel

theorem print_fresh :
    (run (execWrite (vecWrite Unit) 0 0) (Manager.print (fresh.consts 0) x0 8) (fresh, [])).map
      (fun y => (y.1, y.2.2)) = .ok (.ok (), ['1', '*', '\n'].flatMap String.utf8EncodeChar) := by
  decide +kernel

theorem marking_x0 : x0 ≠ (fresh.consts 0).falseId ∧ x0 ≠ (fresh.consts 0).trueId ∧
    (fresh.consts 0).numVars ≠ 0 ∧ (fresh.consts 0).Kept x0 ∧ (marking.world.heap.get x0).Marked ∧
    (marking.world.heap.cell x0).isSome := by
  decide +kernel

/-- Thread 0 prints the first variable, while the others wait. -/
theorem prints {s : Conf ops Shared Nat Call Ret} {out : List UInt8}
    (hs : (clients (fresh.consts 0) 0 60).Reach (Shared.Fits (fresh.consts 0) 0 60) ⟨fresh, []⟩ s)
    (hpc : s.pc 0 = none) (hhas : s.world.world.heap.Has x0)
    (hp : printed s.world.world = .ok (.ok (), out)) :
    ∃ l s', Printing x0 s.world l s' ∧ s'.watch 0 = some (.print x0, .ret (.ok ()), out) ∧
      (∀ e ∈ l, e.1 = s.world) ∧
      ∃ e ∈ l, e.2 = ⟨.mgr (.acc (.level x0)), (s.world.world.heap.get x0).level⟩ := by
  obtain ⟨hF, hT, hn, hkept, -⟩ := marking_x0
  have hstart : Printing x0 s.world [] _ := .start (.unwatched hs) hpc rfl (Or.inr hkept)
  -- the level is read first
  obtain ⟨k, hk⟩ : ∃ k : UInt64 → Prog (writeOps Unit) (Except Unit Unit), _ :=
    Manager.print_inner 7 hF hT hn
  have hwatch : Function.update (fun _ : Nat => none) 0 (some (Look.print x0,
      (Manager.print (fresh.consts 0) x0 8 : Prog (writeOps Unit) _), ([] : List UInt8))) 0 =
        some (Look.print x0, .step (S := writeOps Unit) (.mgr (.acc (.level x0))) k, []) := by
    rw [Function.update_self, hk]
  have hlook : look (vecWrite Unit) 0 0 (.mgr (.acc (.level x0))) s.world.world [] =
      .ok ((s.world.world.heap.get x0).level, []) := by
    unfold look
    rw [Manager.execWrite_level hhas]
  have hfirst := hstart.look (.mgr (.acc (.level x0))) k [] _ [] hwatch hlook
  -- ... and then all the rest
  have hrest : run (fun o => (observers (vecWrite Unit) (fresh.consts 0) 0).look 0 o s.world)
      (k (s.world.world.heap.get x0).level) [] = .ok (.ok (), out) := by
    unfold printed at hp
    rw [hk] at hp
    exact (run_step_ok hlook).symm.trans hp
  obtain ⟨l, hsees, hall⟩ := Onlookers.Sees.part Prog.ret (Except.ok ())
    (k (s.world.world.heap.get x0).level) out hfirst
    (by simp only [Function.update_self, Prog.bind_ret]) hrest
  refine ⟨_, _, hsees, by simp only [Function.update_self], fun e he => ?_, ?_⟩
  · rcases List.mem_append.mp he with he | he
    · exact hall e he
    · rw [List.mem_singleton.mp he]
  · exact ⟨_, List.mem_append_right _ (List.mem_singleton_self _), rfl⟩

/-- **A mark is read**: thread 1 has marked the nodes of the manager when thread 0 prints the first
variable, which it takes for the constant true. -/
theorem print_marked : ∃ l s, Starts 0 ⟨fresh, []⟩ ∧
    Shared.Fits (fresh.consts 0) 0 60 ⟨fresh, []⟩ ∧ Printing x0 marking l s ∧
    (∃ e ∈ l, ¬ Unmarked e.2.1 e.2.2) ∧
    s.watch 0 = some (.print x0, .ret (.ok ()), ['*', '*', '\n'].flatMap String.utf8EncodeChar) ∧
    (run (execWrite (vecWrite Unit) 0 0) (Manager.print (fresh.consts 0) x0 8) (fresh, [])).map
      (fun y => (y.1, y.2.2)) = .ok (.ok (), ['1', '*', '\n'].flatMap String.utf8EncodeChar) := by
  obtain ⟨s₁, hs₁, hpc, hw⟩ := marking_reached
  obtain ⟨-, -, -, -, hmark, hcell⟩ := marking_x0
  have hhas : s₁.world.world.heap.Has x0 := by
    rw [hw]
    exact Option.isSome_iff_exists.mp hcell
  obtain ⟨l, s, hs, hwatch, -, e, he, hanswer⟩ := prints hs₁ hpc hhas (by rw [hw]; exact printed_marked)
  rw [hw] at hs hanswer
  refine ⟨l, s, fresh_starts, fresh_fits, hs, ⟨e, he, ?_⟩, hwatch, print_fresh⟩
  rw [hanswer]
  exact hmark

end ManagerThreads

end Tobdd
