import Mathlib.Data.List.Count
import Tobdd.Init
import Tobdd.Lib.Threads

/-!
# Threads on one manager

Any number of threads share manager `m`, the only one of its process.  Each atomic access, each
access to a memo table, each `make_node` and each taking or dropping of a guard is one step, and
the threads take their steps in any order.  `Shared.refs` are the references that they have: a
thread gets one with each result, gives one back with each `deref_bdd`, and may hand one over to
another thread.  It calls an operation on handles that it has a reference to, or that the manager
keeps itself.

`Inv` holds between any two steps.  A thread that collects or grows the table does so alone but
for references that are dropped, so what is counted stays in the heap with all that it reaches and
stands for what it stood for (`Guar.same`, `Guar.keeps`), and under a read guard everything does
(`Guar.reads`).
-/

namespace Tobdd.ManagerThreads

open Resume Diagram World
open Manager (Op ops step Enough)

/-- The memory, and the references that threads have taken and not given back. -/
structure Shared where
  world : World
  refs : List (Nat × Bdd)

inductive Call where
  | op (c : Manager.Call)
  | gc
  | derefBdd (bdd : Bdd)
  /-- a reference goes over to thread `u` -/
  | hand (bdd : Bdd) (u : Nat)
  deriving DecidableEq

inductive Ret where
  | bdd (b : Bdd)
  | marked (n : Nat)
  | done
  deriving DecidableEq

/-! ## The system -/

/-- What a step of thread `t` does to the references. -/
def account (t : Nat) : Op → List (Nat × Bdd) → List (Nat × Bdd)
  | .acc (.fetchAdd a), l => (t, a) :: l
  | .acc (.fetchSub a), l => l.erase (t, a)
  | _, l => l

def exec (m t : Nat) (o : ops.Op) (x : Shared) : Except Stop (ops.Res o × Shared) :=
  match Manager.exec m t o x.world with
  | .ok (r, w) => .ok (r, ⟨w, account t o x.refs⟩)
  | .error e => .error e

/-- The program of a call, with `n` rounds for every loop. -/
def code (g : Consts) (n : Nat) : Call → Prog ops Ret
  | .op c => do
    let r ← c.prog g n
    return .bdd r
  | .gc => do
    let marked ← Manager.gc n
    return .marked marked
  | .derefBdd bdd => do
    Manager.derefBdd bdd
    return .done
  | .hand _ _ => return .done

namespace Shared

/-- Thread `t` has a reference to `a`, or the manager itself has one. -/
def Holds (g : Consts) (t : Nat) (a : Bdd) (x : Shared) : Prop := (t, a) ∈ x.refs ∨ g.Kept a

/-- How many references to `a` there are. -/
def count (g : Consts) (a : Bdd) (x : Shared) : Nat :=
  x.refs.countP (fun p => p.2 = a) + if g.Kept a then 1 else 0

/-- `a` stands for `f`; marks do not matter. -/
def Means (g : Consts) (a : Bdd) (f : BoolFn) (x : Shared) : Prop := g.Denotes x.world.heap a f

def lock (m : Nat) (x : Shared) : RwLock := (x.world.mgr m).rwLock

/-- Nobody holds the write lock. -/
def Quiet (m : Nat) (x : Shared) : Prop := ∀ t, (x.lock m).writer ≠ some (t, true)

/-- The counts of references fit into 64 bits, the arrays can grow once more, and `n` rounds are
enough for every loop. -/
structure Fits (g : Consts) (m n : Nat) (x : Shared) : Prop where
  counts : ∀ a, x.count g a < 2 ^ 64
  roomy : x.world.Roomy m
  enough : Enough x.world m n

end Shared

namespace Call

def Legal (g : Consts) (t : Nat) (x : Shared) : Call → Prop
  | .op c => ∀ a ∈ c.args, x.Holds g t a
  | .gc => True
  | .derefBdd bdd | .hand bdd _ => (t, bdd) ∈ x.refs

def enter (t : Nat) (x : Shared) : Call → Shared
  | .hand bdd u => { x with refs := (u, bdd) :: x.refs.erase (t, bdd) }
  | _ => x

end Call

def clients (g : Consts) (m n : Nat) : System ops Shared Nat Call Ret where
  exec := exec m
  code _ c _ := code g n c
  legal t c x := c.Legal g t x
  enter t c x := c.enter t x
  leave _ _ _ x := x

/-! ## The invariant -/

structure Inv (g : Consts) (m n : Nat) (x : Shared) : Prop where
  made : ∀ k, x.world.made k = true ↔ k = m
  consts : x.world.consts m = g
  fits : x.Fits g m n
  counts : ∀ a, (x.world.heap.get a).refCnt = UInt64.ofNat (x.count g a)
  has : ∀ a, x.count g a ≠ 0 → x.world.heap.Has a
  alone : ∀ t, (x.lock m).writer = some (t, true) → (x.lock m).readers = []
  quiet : x.Quiet m → x.world.Inv

/-- What one step of thread `t` leaves to the others. -/
structure Guar (g : Consts) (m n t : Nat) (x x' : Shared) : Prop where
  inv : Inv g m n x'
  keeps : ∀ a, x.count g a ≠ 0 → x'.world.heap.frees a = x.world.heap.frees a ∧
    ∀ f, x.Means g a f → x'.Means g a f
  same : ∀ a, x.count g a ≠ 0 → ∀ c, x.world.heap.Reaches a c →
    x'.world.heap.Has c ∧ (x.world.heap.get c).Same (x'.world.heap.get c)
  old : ¬ x'.Quiet m → ∀ a, x'.count g a ≠ 0 → x.count g a ≠ 0
  reads : x.Quiet m → x'.Quiet m ∨ (x.lock m).readers ≠ [] →
    Reads m x.world x'.world ∧ x'.world.heap.frees = x.world.heap.frees
  readers : ∀ u ≠ t, (x'.lock m).readers.count u = (x.lock m).readers.count u
  writer : ∀ u ≠ t, ∀ b, (x'.lock m).writer = some (u, b) ↔ (x.lock m).writer = some (u, b)
  refs : ∀ u ≠ t, ∀ a, (u, a) ∈ x.refs → (u, a) ∈ x'.refs
  drops : ∀ u ≠ t, (x.lock m).writer = some (u, true) →
    Drops m x.world x'.world ∧ ∀ a, x'.count g a ≠ 0 → x.count g a ≠ 0

/-- What thread `t` may rely on while the others act. -/
structure Rely (g : Consts) (m n t : Nat) (x x' : Shared) : Prop where
  inv : Inv g m n x'
  refs : ∀ a, (t, a) ∈ x.refs → (t, a) ∈ x'.refs
  means : ∀ a f, x.Holds g t a → x.Means g a f → x'.Means g a f
  same : ∀ a, x.Holds g t a → ∀ c, x.world.heap.Reaches a c →
    x'.world.heap.Has c ∧ (x.world.heap.get c).Same (x'.world.heap.get c)
  readers : (x'.lock m).readers.count t = (x.lock m).readers.count t
  writer : ∀ b, (x'.lock m).writer = some (t, b) ↔ (x.lock m).writer = some (t, b)
  reads : t ∈ (x.lock m).readers → Reads m x.world x'.world
  drops : (x.lock m).writer = some (t, true) →
    Drops m x.world x'.world ∧ ∀ a, x'.count g a ≠ 0 → x.count g a ≠ 0

section
variable {g : Consts} {m n t u : Nat} {x x' x₁ x₂ x₃ : Shared} {a : Bdd} {f : BoolFn}

theorem holds_count (h : x.Holds g t a) : x.count g a ≠ 0 := by
  unfold Shared.count
  rcases h with h | h
  · have hpos : 0 < x.refs.countP fun p => p.2 = a :=
      List.countP_pos_iff.mpr ⟨(t, a), h, decide_eq_true rfl⟩
    omega
  · rw [if_pos h]
    omega

/-- What is referenced has a count that says so. -/
theorem Inv.refCnt_ne (h : Inv g m n x) : (x.world.heap.get a).refCnt ≠ 0 ↔ x.count g a ≠ 0 := by
  rw [h.counts a, not_iff_not]
  have hlt := h.fits.counts a
  constructor
  · intro h0
    have h1 := congrArg UInt64.toNat h0
    rw [UInt64.toNat_ofNat', Nat.mod_eq_of_lt hlt] at h1
    exact h1
  · intro h0
    rw [h0]
    rfl

theorem Inv.made_self (h : Inv g m n x) : x.world.made m = true := (h.made m).mpr rfl

theorem Inv.quiet_of_reader (h : Inv g m n x) (hr : (x.lock m).readers ≠ []) : x.Quiet m :=
  fun t ht => hr (h.alone t ht)

/-- What is counted is in the table. -/
theorem Inv.live (h : Inv g m n x) (hq : x.Quiet m) (ha : x.count g a ≠ 0) :
    (x.world.store m).Live a := by
  obtain ⟨k, hk, hl⟩ := (h.quiet hq).counted a (h.refCnt_ne.mpr ha)
  obtain rfl := (h.made k).mp hk
  exact hl

theorem Inv.now (h : Inv g m n x) (hq : x.Quiet m) : Manager.Now g m x.world :=
  ⟨h.quiet hq, h.made_self, h.consts⟩

theorem Inv.fitsWorld (h : Inv g m n x) (hq : x.Quiet m) : x.world.Fits m :=
  h.fits.roomy.fits (h.quiet hq) h.made_self

theorem Rely.refl (h : Inv g m n x) : Rely g m n t x x where
  inv := h
  refs _ ha := ha
  means _ _ _ hf := hf
  same a ha _ hac := ⟨hac.has (h.has a (holds_count ha)), .refl _⟩
  readers := rfl
  writer _ := Iff.rfl
  reads hr := .refl (h.quiet (h.quiet_of_reader fun h0 => by simp [h0] at hr)) h.made_self
  drops _ := ⟨.refl m _, fun _ ha => ha⟩

theorem Rely.mem_readers (h : Rely g m n t x x') :
    t ∈ (x'.lock m).readers ↔ t ∈ (x.lock m).readers := by
  rw [← List.count_pos_iff, ← List.count_pos_iff, h.readers]

theorem Rely.trans (h1 : Rely g m n t x₁ x₂) (h2 : Rely g m n t x₂ x₃) : Rely g m n t x₁ x₃ where
  inv := h2.inv
  refs a ha := h2.refs a (h1.refs a ha)
  means a f ha hf := h2.means a f (ha.imp_left (h1.refs a)) (h1.means a f ha hf)
  same a ha c hac := by
    have hac' := hac.congr (h1.same a ha)
    obtain ⟨hhas, hsame⟩ := h2.same a (ha.imp_left (h1.refs a)) c hac'
    exact ⟨hhas, (h1.same a ha c hac).2.trans hsame⟩
  readers := h2.readers.trans h1.readers
  writer b := (h2.writer b).trans (h1.writer b)
  reads hr := (h1.reads hr).trans (h2.reads (h1.mem_readers.mpr hr))
  drops hw := by
    obtain ⟨h3, h4⟩ := h1.drops hw
    obtain ⟨h5, h6⟩ := h2.drops ((h1.writer true).mpr hw)
    exact ⟨h3.trans h5, fun a ha => h4 a (h6 a ha)⟩

/-- What one thread leaves to the others is what each of them relies on. -/
theorem Guar.rely (hi : Inv g m n x) (h : Guar g m n t x x') (hne : t ≠ u) : Rely g m n u x x' where
  inv := h.inv
  refs := h.refs u hne.symm
  means a f ha hf := (h.keeps a (holds_count ha)).2 f hf
  same a ha := h.same a (holds_count ha)
  readers := h.readers u hne.symm
  writer := h.writer u hne.symm
  reads hr := by
    have hr0 : (x.lock m).readers ≠ [] := fun h0 => by simp [h0] at hr
    exact (h.reads (hi.quiet_of_reader hr0) (Or.inr hr0)).1
  drops := h.drops u hne.symm

/-! ## What the steps do -/

/-- A handle goes on to stand for its function while all that it reaches stays. -/
theorem denotes_kept {h h' : Heap} (hT : h.Has g.trueId) (hF : h.Has g.falseId)
    (hd : g.Denotes h a f) :
    (∀ c, h.Reaches a c → h'.Has c ∧ (h.get c).Same (h'.get c)) → g.Denotes h' a f := by
  have hhas : ∀ {c : Bdd} {f : BoolFn}, Diagram.Denotes (g.graph h) c f → h.Has c := by
    intro c f hc
    cases hc with
    | top => exact hT
    | bot => exact hF
    | node hn _ _ => exact hn.1
  unfold Consts.Denotes at hd
  induction hd with
  | top => exact fun _ => Diagram.Denotes.top
  | bot => exact fun _ => Diagram.Denotes.bot
  | @node a f₀ f₁ hn h0 h1 ih0 ih1 =>
    intro hk
    obtain ⟨ha, hs⟩ := hk a .refl
    have hlow : h.Child a (h.get a).low := ⟨hn.1, hhas h0, Or.inl rfl⟩
    have hhigh : h.Child a (h.get a).high := ⟨hn.1, hhas h1, Or.inr rfl⟩
    have hd0 : g.Denotes h' (h'.get a).low f₀ := by
      rw [hs.low]
      exact ih0 fun c hc => hk c (.head hlow hc)
    have hd1 : g.Denotes h' (h'.get a).high f₁ := by
      rw [hs.high]
      exact ih1 fun c hc => hk c (.head hhigh hc)
    have hnode : (g.graph h').node a := ⟨ha, hn.2⟩
    have hd := Diagram.Denotes.node hnode hd0 hd1
    rwa [show (g.graph h').level a = (g.graph h).level a from hs.lvl] at hd

theorem kept_top (g : Consts) : g.Kept g.trueId := Or.inl rfl

theorem kept_bot (g : Consts) : g.Kept g.falseId := Or.inr (Or.inl rfl)

theorem Inv.has_kept (h : Inv g m n x) (ha : g.Kept a) : x.world.heap.Has a :=
  h.has a (holds_count (t := 0) (Or.inr ha))

/-- Only the lock changes, and nobody else holds the write lock. -/
theorem guar_lock (hi : Inv g m n x) {l : RwLock} (hfit : (Shared.mk (x.world.withLock m l) x.refs).Fits g m n)
    (hbusy : ∀ u ≠ t, (x.lock m).writer ≠ some (u, true))
    (halone : ∀ u, l.writer = some (u, true) → l.readers = [])
    (hquiet : (∀ u, l.writer ≠ some (u, true)) → x.world.Inv)
    (hreaders : ∀ u ≠ t, l.readers.count u = (x.lock m).readers.count u)
    (hwriter : ∀ u ≠ t, ∀ b, l.writer = some (u, b) ↔ (x.lock m).writer = some (u, b)) :
    Guar g m n t x ⟨x.world.withLock m l, x.refs⟩ := by
  have hlock : (Shared.mk (x.world.withLock m l) x.refs).lock m = l := by
    unfold Shared.lock
    rw [withLock_mgr]
  constructor
  · constructor
    · exact hi.made
    · rw [withLock_consts]
      exact hi.consts
    · exact hfit
    · exact hi.counts
    · exact hi.has
    · rw [hlock]
      exact halone
    · unfold Shared.Quiet
      rw [hlock]
      exact fun h => (hquiet h).withLock m l
  · exact fun a _ => ⟨rfl, fun _ h => h⟩
  · exact fun a ha c hac => ⟨hac.has (hi.has a ha), .refl _⟩
  · exact fun _ _ ha => ha
  · intro hq _
    have hw := hi.quiet hq
    refine ⟨⟨rfl, withLock_consts .., fun a ha => ?_, fun a ha => ?_, fun _ _ => .refl _,
      withLock_fits ..⟩, rfl⟩
    · rw [withLock_store]
      exact ha
    · exact (hw.table m hi.made_self).nodes.has a ha
  · rw [hlock]
    exact hreaders
  · rw [hlock]
    exact hwriter
  · exact fun _ _ _ h => h
  · exact fun u hu hb => absurd hb (hbusy u hu)

/-- Nothing changes but which thread has a reference. -/
theorem guar_refs (hi : Inv g m n x) {l : List (Nat × Bdd)} (hfit : (Shared.mk x.world l).Fits g m n)
    (hcount : ∀ a, (Shared.mk x.world l).count g a = x.count g a)
    (hrefs : ∀ u ≠ t, ∀ a, (u, a) ∈ x.refs → (u, a) ∈ l) : Guar g m n t x ⟨x.world, l⟩ := by
  constructor
  · constructor
    · exact hi.made
    · exact hi.consts
    · exact hfit
    · intro a
      rw [hcount]
      exact hi.counts a
    · intro a ha
      rw [hcount] at ha
      exact hi.has a ha
    · exact hi.alone
    · exact hi.quiet
  · exact fun a _ => ⟨rfl, fun _ h => h⟩
  · exact fun a ha c hac => ⟨hac.has (hi.has a ha), .refl _⟩
  · intro _ a ha
    rwa [hcount] at ha
  · exact fun hq _ => ⟨.refl (hi.quiet hq) hi.made_self, rfl⟩
  · exact fun _ _ => rfl
  · exact fun _ _ _ => Iff.rfl
  · exact hrefs
  · intro u _ _
    refine ⟨.refl m _, fun a ha => ?_⟩
    rwa [hcount] at ha

theorem guar_refl (hi : Inv g m n x) : Guar g m n t x x :=
  guar_refs hi hi.fits (fun _ => rfl) fun _ _ _ h => h

theorem graph_recount (g : Consts) (w : World) (a : Bdd) (f : UInt64 → UInt64) :
    g.graph (w.recount a f).heap = g.graph w.heap := by
  have hn := recount_node w a f
  unfold Consts.graph
  simp only [Diagram.Graph.mk.injEq, and_true]
  refine ⟨?_, ?_, ?_, ?_⟩
  · funext b
    rw [recount_has]
  · funext b
    exact (hn b).same.lvl
  · funext b
    exact (hn b).low
  · funext b
    exact (hn b).high

/-- Thread `t` takes a reference to `a`, or gives one back. -/
theorem guar_recount (hi : Inv g m n x) {c : UInt64 → UInt64} {l : List (Nat × Bdd)}
    (hfit : (Shared.mk (x.world.recount a c) l).Fits g m n) (hhas : x.world.heap.Has a)
    (hlive : x.Quiet m → (x.world.store m).Live a)
    (hother : ∀ b ≠ a, (Shared.mk (x.world.recount a c) l).count g b = x.count g b)
    (hself : c (UInt64.ofNat (x.count g a)) =
      UInt64.ofNat ((Shared.mk (x.world.recount a c) l).count g a))
    (hrefs : ∀ u ≠ t, ∀ b, (u, b) ∈ x.refs → (u, b) ∈ l)
    (hbusy : ∀ u, (x.lock m).writer = some (u, true) → x.count g a ≠ 0) :
    Guar g m n t x ⟨x.world.recount a c, l⟩ := by
  have hmeans : ∀ b f, Shared.Means g b f ⟨x.world.recount a c, l⟩ ↔ x.Means g b f := by
    intro b f
    unfold Shared.Means Consts.Denotes
    rw [graph_recount]
  constructor
  · constructor
    · exact hi.made
    · exact hi.consts
    · exact hfit
    · intro b
      by_cases hb : b = a
      · subst hb
        rw [recount_refs_self _ _ _ hhas, hi.counts b]
        exact hself
      · rw [recount_refs_of_ne _ _ _ hb, hother b hb]
        exact hi.counts b
    · intro b hb
      rw [recount_has]
      by_cases hba : b = a
      · rw [hba]
        exact hhas
      · rw [hother b hba] at hb
        exact hi.has b hb
    · exact hi.alone
    · exact fun hq => (hi.quiet hq).recount hi.made_self (hlive hq) c
  · exact fun b _ => ⟨rfl, fun f hf => (hmeans b f).mpr hf⟩
  · exact fun b hb d hbd =>
      ⟨(recount_has ..).mpr (hbd.has (hi.has b hb)), (recount_node ..).same⟩
  · intro hnq b hb
    by_cases hba : b = a
    · have hw : ∃ u, (x.lock m).writer = some (u, true) := by
        by_contra hno
        exact hnq fun u hu => hno ⟨u, hu⟩
      obtain ⟨u, hu⟩ := hw
      rw [hba]
      exact hbusy u hu
    · rwa [hother b hba] at hb
  · intro hq _
    have hw := hi.quiet hq
    refine ⟨⟨rfl, rfl, fun b hb => ?_, fun b hb => ?_, fun b _ => (recount_node ..).alike, ?_⟩, rfl⟩
    · exact (recount_live hw hi.made_self a c b).mpr hb
    · exact (recount_has ..).mpr ((hw.table m hi.made_self).nodes.has b hb)
    · exact ⟨fun h => ⟨h.set, h.not, h.cache⟩, fun h => ⟨h.set, h.not, h.cache⟩⟩
  · exact fun _ _ => rfl
  · exact fun _ _ _ => Iff.rfl
  · exact hrefs
  · intro u _ hw
    have h0 := hbusy u hw
    refine ⟨⟨rfl, rfl, rfl, rfl, rfl, rfl, recount_has _ _ _, recount_node _ _ _, fun b hb => ?_⟩, ?_⟩
    · have hne : b ≠ a := by
        rintro rfl
        exact hi.refCnt_ne.mpr h0 hb
      exact (recount_refs_of_ne _ _ _ hne).trans hb
    · intro b hb
      by_cases hba : b = a
      · rw [hba]
        exact h0
      · rwa [hother b hba] at hb

/-- A step of a recursion. -/
theorem guar_works (hi : Inv g m n x) {w : World} (ht : t ∈ (x.lock m).readers)
    (hfit : (Shared.mk w x.refs).Fits g m n) (hw : Works m t x.world w) :
    Guar g m n t x ⟨w, x.refs⟩ := by
  have hr0 : (x.lock m).readers ≠ [] := fun h0 => by simp [h0] at ht
  have hq := hi.quiet_of_reader hr0
  have hlock : (Shared.mk w x.refs).lock m = x.lock m := hw.lock
  have hlive := fun a (ha : x.count g a ≠ 0) => hi.live hq ha
  constructor
  · constructor
    · rw [hw.reads.made]
      exact hi.made
    · exact hw.reads.consts.trans hi.consts
    · exact hfit
    · intro a
      rw [hw.refs a]
      exact hi.counts a
    · exact fun a ha => hw.reads.has a (hlive a ha)
    · rw [hlock]
      exact hi.alone
    · exact fun _ => hw.inv
  · refine fun a ha => ⟨congrFun hw.frees a, fun f hf => ?_⟩
    exact (Consts.Stands.keep (hi.now hq).table.nodes hw.reads.keeps ⟨hlive a ha, hf⟩).2
  · intro a ha c hac
    have hc := (hi.now hq).table.markable.reaches (hlive a ha) hac
    exact ⟨hw.reads.has c hc, (hw.reads.node c hc).same⟩
  · exact fun _ _ ha => ha
  · exact fun _ _ => ⟨hw.reads, hw.frees⟩
  · intro u _
    rw [hlock]
  · intro u _ b
    rw [hlock]
  · exact fun _ _ _ h => h
  · exact fun u _ hb => absurd hb (hq u)

/-- A step of the collector or of the growth. -/
theorem guar_cleans (hi : Inv g m n x) {w : World} {V : Bdd → Prop}
    (ht : (x.lock m).writer = some (t, true)) (hV : ∀ a, x.count g a ≠ 0 → V a)
    (hfit : (Shared.mk w x.refs).Fits g m n) (hc : Cleans V m x.world w)
    (hlock : (w.mgr m).rwLock = x.lock m) : Guar g m n t x ⟨w, x.refs⟩ := by
  have hlock : (Shared.mk w x.refs).lock m = x.lock m := hlock
  have hnq : ¬ x.Quiet m := fun hq => hq t ht
  have hkept : ∀ a c, x.count g a ≠ 0 → x.world.heap.Reaches a c → w.heap.Has c := by
    intro a c ha hac
    exact hc.tidies.kept a c (hV a ha) (hi.has a ha) (hi.refCnt_ne.mpr ha) hac
  have hself := fun a ha => hkept a a ha .refl
  have hsame : ∀ a, x.count g a ≠ 0 → ∀ c, x.world.heap.Reaches a c →
      w.heap.Has c ∧ (x.world.heap.get c).Same (w.heap.get c) := by
    intro a ha c hac
    have hhas := hkept a c ha hac
    exact ⟨hhas, (hc.tidies.same c hhas).1⟩
  constructor
  · constructor
    · rw [hc.made]
      exact hi.made
    · exact hc.consts.trans hi.consts
    · exact hfit
    · intro a
      show (w.heap.get a).refCnt = UInt64.ofNat (x.count g a)
      by_cases ha : w.heap.Has a
      · rw [← hi.counts a]
        exact (hc.tidies.same a ha).2
      · -- what is gone was not referenced
        have h0 : x.count g a = 0 := by
          by_contra h0
          exact ha (hself a h0)
        rw [Heap.get_of_not_has ha, h0]
        rfl
    · exact hself
    · rw [hlock]
      exact hi.alone
    · unfold Shared.Quiet
      rw [hlock]
      exact fun hq => absurd hq hnq
  · intro a ha
    refine ⟨hc.tidies.frees a (hself a ha), fun f hf => ?_⟩
    exact denotes_kept (hi.has_kept (kept_top g)) (hi.has_kept (kept_bot g)) hf (hsame a ha)
  · exact hsame
  · exact fun _ _ ha => ha
  · exact fun hq => absurd hq hnq
  · intro u _
    rw [hlock]
  · intro u _ b
    rw [hlock]
  · exact fun _ _ _ h => h
  · intro u hu hb
    rw [ht] at hb
    exact absurd (Prod.mk.inj (Option.some.inj hb)).1.symm hu

end

end Tobdd.ManagerThreads
