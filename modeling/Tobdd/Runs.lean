import Tobdd.Encode
import Tobdd.Init

/-!
# Runs of a single thread

`Step t w w'`: thread `t` makes one call, on any of the managers there are, and it returns.
A run is a chain of such steps; it goes on as long as the constants of every manager are in
its table, that is unless a client gave away the last references that kept one.

`Sound w m` is what holds for manager `m` in every state a run reaches, the last one
included; where the constants are there it is the invariant of `Invariant`.

    Run.settled: a run from a state at rest ends in a state at rest, or right after a
                 collection that took a constant
    Run.onward: nodes stay as they are until they are freed
    Reach.sound: ... and every manager is sound
-/

namespace Tobdd

open Resume Diagram

namespace World

/-- No manager, and no memory in use. -/
structure Fresh (w : World) : Prop where
  made : ∀ m, w.made m = false
  cell : ∀ a, w.heap.cell a = none
  freeId : ∀ t, w.freeId t = 0

/-- A state between two calls. -/
structure Resting (w : World) : Prop where
  inv : w.Inv
  idle : ∀ m, w.made m = true → w.Idle m

/-- The constants of manager `m` are in its table. -/
def HasConsts (w : World) (m : Nat) : Prop :=
  (w.store m).Live (w.consts m).trueId ∧ (w.store m).Live (w.consts m).falseId

/-- The constants of every manager are in its table. -/
def Whole (w : World) : Prop := ∀ m, w.made m = true → w.HasConsts m

theorem Fresh.resting {w : World} (h : w.Fresh) : w.Resting := by
  have hno : ∀ {m : Nat} {P : Prop}, w.made m = true → P := fun {m} _ hm => by
    rw [h.made m] at hm
    cases hm
  have hhas : ∀ a, ¬ w.heap.Has a := fun a ⟨n, hn⟩ => by
    rw [h.cell a] at hn
    cases hn
  refine ⟨⟨fun m hm => hno hm, fun m hm => hno hm, fun m m' a hm => hno hm,
    fun t ht => absurd (h.freeId t) ht, fun t u ht => absurd (h.freeId t) ht, fun a ha => ?_⟩,
    fun m hm => hno hm⟩
  rw [Heap.get_of_not_has (hhas a)] at ha
  exact absurd rfl ha

theorem Resting.whole {w : World} (h : w.Resting) : w.Whole := fun m hm =>
  ⟨(h.inv.table m hm).nodes.top, (h.inv.table m hm).nodes.bot⟩

theorem Resting.now {w : World} (h : w.Resting) {m : Nat} (hm : w.made m = true) :
    Manager.Now (w.consts m) m w := ⟨h.inv, hm, rfl⟩

end World

namespace Manager

open World

/-! ## Steps -/

/-- The bytes are what `serialize` wrote for an inner node of some manager with `k` variables. -/
def Serialized (k : Nat) (bytes : List UInt8) : Prop :=
  ∃ (ε : Type) (g : Consts) (m t n : Nat) (w : World) (a : Bdd), Source g m w ∧ g.numVars = k ∧
    (w.store m).Live a ∧ a ≠ g.trueId ∧ a ≠ g.falseId ∧
    ∃ w', run (execWrite (vecWrite ε) m t) (serialize g a n) (w, []) = .ok (.ok (), w', bytes)

theorem Serialized.stream {k : Nat} {bytes : List UInt8} (h : Serialized k bytes) :
    ∃ (g : Consts) (m n : Nat) (w : World) (a : Bdd) (f : BoolFn), Source g m w ∧ g.numVars = k ∧
      w.Stands m a f ∧ a ≠ g.trueId ∧ a ≠ g.falseId ∧ Within g w.heap n a ∧
      bytes = stream g w.heap n a := by
  obtain ⟨ε, g, m, t, n, w, a, hs, hk, ha, hT, hF, w', hrun⟩ := h
  obtain ⟨f, hf⟩ := hs.now.table.nodes.denotes ha
  rcases run_serialize hs.now ha ε t n with ⟨hr, hw⟩ | ⟨hr, -⟩
  · obtain ⟨-, h2⟩ := Prod.mk.inj (Except.ok.inj (hrun.symm.trans hr))
    exact ⟨g, m, n, w, a, f, hs, hk, hs.now.stands_iff.mpr ⟨ha, hf⟩, hT, hF, hw,
      (Prod.mk.inj h2).2⟩
  · cases hrun.symm.trans hr

theorem Serialized.legible {k : Nat} {bytes : List UInt8} (h : Serialized k bytes) :
    (∀ debug, Legible debug k bytes) ∧ ∃ f, Describes bytes f := by
  obtain ⟨g, m, n, w, a, f, hs, rfl, ha, hT, hF, hw, rfl⟩ := h.stream
  exact ⟨fun debug => stream_legible debug hs hw ha, f, stream_describes hs hw ha hT hF⟩

/-- One call of thread `t`, alone; `serialize`, `print` and the getters change nothing.
Handles that are passed are nodes of the table, also after the clean-up of the call itself:
what follows a use of freed memory is not described. -/
inductive Step (t : Nat) (w w' : World) : Prop
  | init (m n : Nat) (tableSize cacheSize : UInt64) (varNum : Nat) (hm : w.made m = false)
      (hrun : Manager.init m t tableSize cacheSize varNum n w = .ok w')
  | call (m n : Nat) (c : Call) (r : Bdd) (hm : w.made m = true)
      (hu : ∀ w₂, run (exec m t) (enterOp n) w = .ok ((), w₂) → Usable m c w₂)
      (hrun : run (exec m t) (c.prog (w.consts m) n) w = .ok (r, w'))
  | refBdd (m : Nat) (a : Bdd) (hm : w.made m = true) (ha : (w.store m).Live a)
      (hrun : run (exec m t) (Manager.refBdd a) w = .ok ((), w'))
  | derefBdd (m : Nat) (a : Bdd) (hm : w.made m = true) (ha : (w.store m).Live a)
      (hrun : run (exec m t) (Manager.derefBdd a) w = .ok ((), w'))
  | gc (m n c : Nat) (hm : w.made m = true) (hrun : run (exec m t) (Manager.gc n) w = .ok (c, w'))
  | makeNode (m : Nat) (level : UInt64) (low high r : Bdd) (hm : w.made m = true)
      (hlow : (w.store m).Live low) (hhigh : (w.store m).Live high)
      (hlevel : level.toNat < (w.consts m).numVars)
      (hbelow : ((w.consts m).graph w.heap).Below level.toNat low ∧
        ((w.consts m).graph w.heap).Below level.toNat high)
      (hrun : run (exec m t) (step (.makeNode level low high)) w = .ok (r, w'))
  | deserialize {σ ε : Type} (debug : Bool) (R : IoRead σ ε) (content : σ → List UInt8) (x x' : σ)
      (m n : Nat) (h : Bdd) (hR : Delivers R content) (hm : w.made m = true)
      (hbytes : Serialized (w.consts m).numVars (content x))
      (hrun : run (execRead R m t) (Manager.deserialize debug (w.consts m) n) (w, x) =
        .ok (.ok h, w', x'))

/-- A chain of calls. -/
inductive Run (t : Nat) (w : World) : World → Prop
  | refl : Run t w w
  | step {w₁ w₂ : World} (h : Run t w w₁) (hw : w₁.Whole) (hs : Step t w₁ w₂) : Run t w w₂

/-- A state that thread `t` reaches from nothing. -/
def Reach (t : Nat) (w : World) : Prop := ∃ w₀ : World, w₀.Fresh ∧ Run t w₀ w

/-! ## What one step does -/

/-- A state between two calls, or one right after a collection. -/
inductive Settled (w : World) : Prop
  | resting (h : w.Resting)
  | collected (w₀ : World) (m : Nat) (h : w₀.Resting) (hm : w₀.made m = true)
      (hs : Shrinks m w₀ w) (hc : Cleaned 0 m w₀ w) (hl : w.Idle m)

variable {t m n : Nat} {w w' : World}

/-- No guard is held after a step that leaves the others alone. -/
theorem idle_of_others (hi : w.Resting) (hmade : w'.made = w.made) (hl : w'.Idle m)
    (ho : ∀ k, k ≠ m → w'.mgr k = w.mgr k) : ∀ k, w'.made k = true → w'.Idle k := by
  intro k hk
  by_cases hkm : k = m
  · subst hkm
    exact hl
  · unfold Idle
    rw [ho k hkm]
    rw [hmade] at hk
    exact hi.idle k hk

theorem Settled.resting_of_whole (h : Settled w) (hw : w.Whole) : w.Resting := by
  cases h with
  | resting h => exact h
  | collected w₀ m h hm hs hc hl =>
    have hmade := hs.made
    obtain ⟨htop, hbot⟩ := hw m (by rw [hmade]; exact hm)
    rw [hs.consts] at htop hbot
    exact ⟨hs.inv htop hbot, idle_of_others h hmade hl hs.others⟩

theorem resting_recount (hi : w.Resting) (hm : w.made m = true) {a : Bdd} (ha : (w.store m).Live a)
    (f : UInt64 → UInt64) : (w.recount a f).Resting ∧ Onward w (w.recount a f) :=
  ⟨⟨hi.inv.recount hm ha f, hi.idle⟩, .recount hi.inv a f⟩

theorem resting_works (hi : w.Resting) (hm : w.made m = true) (h : Works m t w w') :
    w'.Resting ∧ Onward w w' :=
  ⟨⟨h.inv, idle_of_others hi h.reads.made (by
    unfold Idle
    rw [h.lock]
    exact hi.idle m hm) h.others⟩, h.onward hi.inv hm⟩

theorem Founded.resting {tableSize cacheSize : UInt64} {varNum : Nat}
    (hf : Founded m tableSize cacheSize varNum w w') (hi : w.Resting) : w'.Resting := by
  refine ⟨hf.inv, fun k hk => ?_⟩
  by_cases hkm : k = m
  · subst hkm
    exact hf.idle
  · unfold Idle
    rw [hf.others k hkm]
    rw [hf.made, Function.update_of_ne hkm] at hk
    exact hi.idle k hk

/-- `make_node` of two nodes below its level. -/
theorem exec_makeNode_live (hi : w.Resting) (hm : w.made m = true) {level : UInt64} {low high : Bdd}
    (hlow : (w.store m).Live low) (hhigh : (w.store m).Live high)
    (hlevel : level.toNat < (w.consts m).numVars)
    (hbelow : ((w.consts m).graph w.heap).Below level.toNat low ∧
      ((w.consts m).graph w.heap).Below level.toNat high) :
    ∃ r w', exec m t (.makeNode level low high) w = .ok (r, w') ∧ Works m t w w' := by
  have ht := hi.inv.table m hm
  obtain ⟨f, hf⟩ := ht.nodes.denotes hlow
  obtain ⟨f', hf'⟩ := ht.nodes.denotes hhigh
  obtain ⟨r, w', he, hw, -⟩ := exec_makeNode (t := t) (hi.now hm) ⟨hlow, hf⟩ ⟨hhigh, hf'⟩
    (ht.nodes.ordered.from hlow (ht.nodes.ordered.atLeast_child hbelow.1) hf)
    (ht.nodes.ordered.from hhigh (ht.nodes.ordered.atLeast_child hbelow.2) hf') hlevel
  exact ⟨r, w', he, hw⟩

/-- **One step.** -/
theorem Step.onward (hi : w.Resting) (h : Step t w w') : Settled w' ∧ Onward w w' := by
  cases h with
  | init m n tableSize cacheSize varNum hm hrun =>
    rcases run_init hi.inv hm t tableSize cacheSize varNum n with ⟨w₁, h1, hf⟩ | ⟨e, h1, -⟩
    · obtain rfl := Except.ok.inj (h1.symm.trans hrun)
      exact ⟨.resting (hf.resting hi), hf.onward⟩
    · cases h1.symm.trans hrun
  | call m n c r hm hu hrun =>
    obtain ⟨w₁, w₂, he, hent, hans⟩ := run_call hi.inv hm (hi.idle m hm) hrun
    have hu₁ : Usable m c w₁ := by
      obtain ⟨h1, h2, h3⟩ := hu w₂ he
      rw [hent.eq] at h1 h2 h3
      simp only [withLock_store, withLock_consts] at h1 h2 h3
      exact ⟨h1, h2, h3⟩
    obtain ⟨F, -, ha⟩ := hans hu₁
    have hs := hent.shrinks
    exact ⟨.resting ⟨ha.inv, idle_of_others hi (ha.made.trans hs.made) ha.idle fun k hk =>
      (ha.others k hk).trans (hs.others k hk)⟩, hs.onward.trans ha.onward⟩
  | refBdd m a hm ha hrun =>
    have he := exec_fetchAdd (m := m) (t := t) ((hi.inv.table m hm).nodes.has a ha)
    have hw := run_op_eq he hrun
    obtain ⟨h1, h2⟩ := resting_recount hi hm ha (· + 1)
    exact hw ▸ ⟨.resting h1, h2⟩
  | derefBdd m a hm ha hrun =>
    have he := exec_fetchSub (m := m) (t := t) ((hi.inv.table m hm).nodes.has a ha)
    have hw := run_op_eq he hrun
    obtain ⟨h1, h2⟩ := resting_recount hi hm ha (· - 1)
    exact hw ▸ ⟨.resting h1, h2⟩
  | gc m n c hm hrun =>
    rcases run_gc hi.inv hm (hi.idle m hm) t n with ⟨c', w₁, h1, hs, hl, hc, -⟩ | ⟨h1, -⟩
    · have hw := (Prod.mk.inj (Except.ok.inj (h1.symm.trans hrun))).2
      exact hw ▸ ⟨.collected w m hi hm hs hc hl, hs.onward⟩
    · cases h1.symm.trans hrun
  | makeNode m level low high r hm hlow hhigh hlevel hbelow hrun =>
    obtain ⟨r', w₁, he, hw⟩ := exec_makeNode_live (t := t) hi hm hlow hhigh hlevel hbelow
    have hw' := run_op_eq he hrun
    obtain ⟨h1, h2⟩ := resting_works hi hm hw
    exact hw' ▸ ⟨.resting h1, h2⟩
  | deserialize debug R content x x' m n h hR hm hbytes hrun =>
    obtain ⟨hleg, f, hf⟩ := hbytes.legible
    rcases run_deserialize hR (hi.now hm) (hi.idle m hm) (hleg debug) hf t n with
      ⟨h', w₁, x₁, h1, hb, -⟩ | ⟨h1, -⟩
    · obtain ⟨-, h2⟩ := Prod.mk.inj (Except.ok.inj (h1.symm.trans hrun))
      obtain rfl := (Prod.mk.inj h2).1
      exact ⟨.resting ⟨hb.inv, idle_of_others hi hb.made hb.idle hb.others⟩, hb.onward⟩
    · cases h1.symm.trans hrun

/-! ## What a run does -/

theorem Run.settled (h : Run t w w') (hi : Settled w) : Settled w' ∧ Onward w w' := by
  induction h with
  | refl => exact ⟨hi, .refl w⟩
  | step _ hw hs ih =>
    obtain ⟨h1, h2⟩ := ih
    obtain ⟨h3, h4⟩ := hs.onward (h1.resting_of_whole hw)
    exact ⟨h3, h2.trans h4⟩

theorem Run.trans {w₁ w₂ w₃ : World} (h1 : Run t w₁ w₂) (h2 : Run t w₂ w₃) : Run t w₁ w₃ := by
  induction h2 with
  | refl => exact h1
  | step _ hw hs ih => exact .step ih hw hs

theorem Reach.settled (h : Reach t w) : Settled w := by
  obtain ⟨w₀, hf, hr⟩ := h
  exact (hr.settled (.resting hf.resting)).1

/-- A state from which a run can go on. -/
theorem Reach.resting (h : Reach t w) (hw : w.Whole) : w.Resting :=
  h.settled.resting_of_whole hw

/-! ## What holds for each manager -/

end Manager

namespace World

open Manager

/-- Manager `m` is in order. -/
structure Sound (w : World) (m : Nat) : Prop where
  inv : (w.store m).Inv
  owed : (w.mgr m).set.owed = []
  sized : (w.store m).Sized
  reduced : Reduced ((w.consts m).graph w.heap) (w.consts m).numVars (w.store m).Live
  unmarked : ∀ a, (w.store m).Live a → ¬ (w.heap.get a).Marked
  caches : CachesOk (w.mgr m) (w.store m)
  scratch : ∀ t, ¬ (w.store m).Live (w.freeId t)

variable {w : World} {m : Nat}

/-- A manager with its constants. -/
theorem sound_of_table (ht : TableOk (w.consts m) (w.store m)) (hc : CachesOk (w.mgr m) (w.store m))
    (hs : ∀ t, ¬ (w.store m).Live (w.freeId t)) : w.Sound m :=
  ⟨ht.inv, ht.owed, ht.sized, ht.reduced, ht.nodes.unmarked, hc, hs⟩

theorem Inv.sound (hi : w.Inv) (hm : w.made m = true) : w.Sound m := by
  have ht := hi.table m hm
  refine sound_of_table ht (hi.caches m hm) fun t hl => ?_
  by_cases h0 : w.freeId t = 0
  · rw [h0] at hl
    exact (ht.nodes.has 0 hl).ne_zero rfl
  · exact (hi.scratch t h0).2.2 m hm hl

/-- A manager that was collected, whatever is left of it. -/
theorem Shrinks.sound {w₀ : World} (hi : w₀.Inv) (hm : w₀.made m = true) (hs : Shrinks m w₀ w)
    (hc : Cleaned 0 m w₀ w) : w.Sound m := by
  have ht := hi.table m hm
  have htid := hc.tidied
  have hexp : (w.store m).set.sizeExp = (w₀.store m).set.sizeExp := hc.exp
  have hhas : ∀ a, (w.store m).Live a → w.heap.Has a := fun a ha => htid.inv.table.has ha
  refine
    { inv := htid.inv
      owed := htid.owed
      sized := ?_
      reduced := ?_
      unmarked := fun a ha h => ht.nodes.unmarked a (htid.sub a ha) ((htid.node a ha).marked.mp h)
      caches := ⟨hc.notEmpty.quiet, hc.notLen, hc.notEmpty.sound _, fun c => (hc.empty c).quiet,
        hc.cacheLen, fun c => (hc.empty c).sound _⟩
      scratch := fun t hl => ?_ }
  · have h0 : (w₀.store m).set.buckets.len = shl64 (w₀.store m).set.sizeExp := ht.sized
    show (w.store m).set.buckets.len = shl64 (w.store m).set.sizeExp
    rw [htid.len, hexp, ← h0, ht.len]
  · rw [hs.consts]
    refine ht.reduced.part htid.sub (fun a ha hn => ?_) rfl rfl ⟨ht.nodes.top_ne_bot,
      fun h => h.2.1 rfl, fun h => h.2.2 rfl⟩ fun a ha => ⟨?_, (htid.node a ha).same.lvl,
      (htid.node a ha).low, (htid.node a ha).high⟩
    · obtain ⟨h1, h2⟩ := ht.nodes.closed a (htid.sub a ha) hn
      exact ⟨htid.closed a _ ha ⟨hn.1, ht.nodes.has _ h1, Or.inl rfl⟩,
        htid.closed a _ ha ⟨hn.1, ht.nodes.has _ h2, Or.inr rfl⟩⟩
    · exact and_congr_left' ⟨fun _ => ht.nodes.has a (htid.sub a ha), fun _ => hhas a ha⟩
  · rw [hs.freeId] at hl
    exact (hi.sound hm).scratch t (htid.sub _ hl)

/-- A manager beside one that was collected. -/
theorem Shrinks.sound_other {w₀ : World} (hi : w₀.Inv) {k : Nat} (hk : w₀.made k = true)
    (hkm : k ≠ m) (hm : w₀.made m = true) (hs : Shrinks m w₀ w) (hc : Cleaned 0 m w₀ w) :
    w.Sound k := by
  obtain ⟨h1, h2, h3⟩ := hi.other hk (hc.others k hkm) fun a ha => by
    have hn : ¬ (w₀.store m).Live a := hi.disjoint k m a hk hm hkm ha
    exact ⟨(hc.aside.has a hn).mpr ((hi.table k hk).nodes.has a ha), hc.aside.node a hn⟩
  refine sound_of_table h1 h2 fun t hl => ?_
  rw [hs.freeId] at hl
  exact (hi.sound hk).scratch t ((h3 _).mp hl)

end World

namespace Manager

open World

variable {t m : Nat} {w : World}

theorem Settled.sound (h : Settled w) (hm : w.made m = true) : w.Sound m := by
  cases h with
  | resting h => exact h.inv.sound hm
  | collected w₀ k h hk hs hc hl =>
    rw [hs.made] at hm
    by_cases hmk : m = k
    · subst hmk
      exact hs.sound h.inv hm hc
    · exact hs.sound_other h.inv hm hmk hk hc

/-- **Every manager is sound in every state a run reaches.** -/
theorem Reach.sound (h : Reach t w) (hm : w.made m = true) : w.Sound m := h.settled.sound hm

/-! ## A process with one manager -/

/-- Nothing is there yet; the allocator has no wishes. -/
def blank : World where
  heap := .empty fun _ => 0
  freeId _ := 0
  made _ := false
  mgr _ :=
    { numVars := 0
      trueId := 0
      falseId := 0
      vars := []
      nvars := []
      set := .withCapacity 0
      rwLock := ⟨[], none⟩
      notCache := .withCapacity 0
      cache := fun _ => .withCapacity 0 }

theorem blank_fresh : blank.Fresh := ⟨fun _ => rfl, fun _ => rfl, fun _ => rfl⟩

/-- Manager 0, made by thread 0. -/
def single (tableSize cacheSize : UInt64) (varNum : Nat) : World :=
  match Manager.init 0 0 tableSize cacheSize varNum (2 * varNum + 4) blank with
  | .ok w => w
  | .error _ => blank

theorem single_init (tableSize cacheSize : UInt64) (varNum : Nat)
    (ht : capacityExp tableSize % 64 < 31) (hv : varNum * 8 < 2 ^ 63) :
    Manager.init 0 0 tableSize cacheSize varNum (2 * varNum + 4) blank =
      .ok (single tableSize cacheSize varNum) ∧
    Founded 0 tableSize cacheSize varNum blank (single tableSize cacheSize varNum) := by
  have hi := blank_fresh.resting.inv
  rcases run_init hi rfl 0 tableSize cacheSize varNum (2 * varNum + 4) with ⟨w, hw, hf⟩ | ⟨e, -, he⟩
  · have heq : single tableSize cacheSize varNum = w := by
      unfold single
      rw [hw]
    rw [heq]
    exact ⟨hw, hf⟩
  · rcases he with ⟨-, h⟩ | ⟨-, h⟩
    · omega
    · exact absurd ⟨ht, hv⟩ h

theorem blank_whole : blank.Whole := fun m hm => by cases hm

theorem single_founded (tableSize cacheSize : UInt64) (varNum : Nat)
    (ht : capacityExp tableSize % 64 < 31) (hv : varNum * 8 < 2 ^ 63) :
    Founded 0 tableSize cacheSize varNum blank (single tableSize cacheSize varNum) ∧
      Reach 0 (single tableSize cacheSize varNum) := by
  obtain ⟨hw, hf⟩ := single_init tableSize cacheSize varNum ht hv
  exact ⟨hf, blank, blank_fresh, .step .refl blank_whole (.init 0 _ _ _ _ rfl hw)⟩

theorem single_ready (tableSize cacheSize : UInt64) (varNum : Nat)
    (ht : capacityExp tableSize % 64 < 31) (hv : varNum * 8 < 2 ^ 63) :
    Reach 0 (single tableSize cacheSize varNum) ∧ (single tableSize cacheSize varNum).Whole ∧
      (single tableSize cacheSize varNum).made 0 = true := by
  obtain ⟨hf, hr⟩ := single_founded tableSize cacheSize varNum ht hv
  refine ⟨hr, fun m hm => ?_, hf.here⟩
  have ht := hf.inv.table m hm
  exact ⟨ht.nodes.top, ht.nodes.bot⟩

end Manager

end Tobdd
