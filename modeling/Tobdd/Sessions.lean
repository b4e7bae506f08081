import Tobdd.Runs

/-!
# What a client holds

A client of one manager takes references and gives them back: an operation returns its result
referenced, `ref_bdd` takes one more reference and `deref_bdd` gives one back.  `Session` is the
memory with the references the client has; `History` is a run of such calls, in one thread.

The manager itself holds one reference to each constant and variable (`Consts.Kept`).  As long
as a count of 64 bits tells how many references there are (`Session.Fair`), it is their number
(`Accounted`), so what is held is not collected.

    History.accounted: in every state of a run the counts are right
    History.reach: such a run is a run of the thread
    Order.states_history, Order.states_calls: calls that can be carried out one after the other
                    are a run
-/

namespace Tobdd

open Resume Diagram

namespace Manager

open World

/-- The memory, and how many more references the client took to a handle than it gave back. -/
structure Session where
  world : World
  own : Bdd → Int

namespace Session

/-- The references to `a` that the client and manager `m` have. -/
def refs (s : Session) (m : Nat) (a : Bdd) : Int :=
  s.own a + if (s.world.consts m).Kept a then 1 else 0

/-- The client has a reference to `a`, or manager `m` itself has one. -/
def Held (s : Session) (m : Nat) (a : Bdd) : Prop :=
  0 < s.own a ∨ (s.world.consts m).Kept a

/-- No handle was given back more often than it was taken, and the references to it can be
counted in 64 bits. -/
structure Fair (s : Session) (m : Nat) : Prop where
  given : ∀ a, 0 ≤ s.own a
  fits : ∀ a, s.refs m a < 2 ^ 64

end Session

/-- One call of the client, in thread `t`, on manager `m`.  The operands of an operation are
nodes of the table when it comes to use them, and so is what is referenced or dereferenced. -/
inductive Moves (t m : Nat) (s s' : Session) : Prop
  | call (n : Nat) (c : Call) (r : Bdd)
      (hu : ∀ w₂, run (exec m t) (enterOp n) s.world = .ok ((), w₂) →
        ∀ a ∈ c.args, (w₂.store m).Live a)
      (hrun : run (exec m t) (c.prog (s.world.consts m) n) s.world = .ok (r, s'.world))
      (hown : s'.own = Function.update s.own r (s.own r + 1))
  | refBdd (a : Bdd) (ha : (s.world.store m).Live a)
      (hrun : run (exec m t) (Manager.refBdd a) s.world = .ok ((), s'.world))
      (hown : s'.own = Function.update s.own a (s.own a + 1))
  | derefBdd (a : Bdd) (ha : (s.world.store m).Live a)
      (hrun : run (exec m t) (Manager.derefBdd a) s.world = .ok ((), s'.world))
      (hown : s'.own = Function.update s.own a (s.own a - 1))
  | gc (n c : Nat) (hrun : run (exec m t) (Manager.gc n) s.world = .ok (c, s'.world))
      (hown : s'.own = s.own)

/-- Manager `m` has just been made, in any state that thread `t` reaches. -/
def Begins (t m : Nat) (s : Session) : Prop :=
  ∃ (w : World) (tableSize cacheSize : UInt64) (varNum n : Nat), Reach t w ∧ w.Whole ∧
    w.made m = false ∧ Manager.init m t tableSize cacheSize varNum n w = .ok s.world ∧
    ∀ a, s.own a = 0

/-- The states of a run of `n` calls. -/
structure History (t m n : Nat) (s : Nat → Session) : Prop where
  begins : Begins t m (s 0)
  moves : ∀ i, i < n → Moves t m (s i) (s (i + 1))

/-! ## The counts are right -/

/-- Each count is the number of references, and what is held is in the table. -/
structure Accounted (s : Session) (m : Nat) : Prop where
  resting : s.world.Resting
  made : s.world.made m = true
  live : ∀ a, s.Held m a → (s.world.store m).Live a
  counts : ∀ a, (s.world.store m).Live a → ((s.world.heap.get a).refCnt.toNat : Int) = s.refs m a

/-- What one call of the client does. -/
structure Moved (m : Nat) (s s' : Session) : Prop where
  accounted : Accounted s' m
  onward : Onward s.world s'.world
  frees : ∀ a, s.Held m a → s'.world.heap.frees a = s.world.heap.frees a

section
variable {t m n : Nat} {s s' : Session} {a : Bdd}

theorem Session.Fair.refs_pos (h : s.Fair m) (ha : s.Held m a) : 0 < s.refs m a := by
  unfold Session.refs
  have hg := h.given a
  rcases ha with ha | ha
  · split <;> omega
  · rw [if_pos ha]
    omega

theorem Accounted.refCnt_ne (h : Accounted s m) (hf : s.Fair m) (ha : s.Held m a) :
    (s.world.heap.get a).refCnt ≠ 0 := by
  intro h0
  have hc := h.counts a (h.live a ha)
  rw [h0] at hc
  have hp := hf.refs_pos ha
  have hz : ((0 : UInt64).toNat : Int) = 0 := rfl
  omega

/-- What is held is not collected. -/
theorem Accounted.survives (h : Accounted s m) (hf : s.Fair m) {w : World}
    (hs : Shrinks m s.world w) (ha : s.Held m a) : (w.store m).Live a :=
  hs.kept a a (h.live a ha) (h.refCnt_ne hf ha) .refl

theorem held_top (s : Session) (m : Nat) : s.Held m (s.world.consts m).trueId :=
  Or.inr (Or.inl rfl)

theorem held_bot (s : Session) (m : Nat) : s.Held m (s.world.consts m).falseId :=
  Or.inr (Or.inr (Or.inl rfl))

/-- What a reference more or less is to a count. -/
theorem count_add {c c' : UInt64} {k k' d : Int} (hc : (c.toNat : Int) = k) (hk : k' = k + d)
    (hd : d = 1 ∧ c' = c + 1 ∨ d = -1 ∧ c' = c - 1) (h0 : 0 ≤ k') (hlt : k' < 2 ^ 64) :
    (c'.toNat : Int) = k' := by
  rcases hd with ⟨rfl, rfl⟩ | ⟨rfl, rfl⟩
  · rw [UInt64.toNat_add]
    have h1 : (1 : UInt64).toNat = 1 := rfl
    rw [h1]
    omega
  · rw [UInt64.toNat_sub]
    have h1 : (1 : UInt64).toNat = 1 := rfl
    have hb := c.toNat_lt
    rw [h1]
    omega

theorem Session.refs_update {d : Int} (hcon : s'.world.consts m = s.world.consts m)
    (hown : s'.own = Function.update s.own a (s.own a + d)) (b : Bdd) :
    s'.refs m b = s.refs m b + if b = a then d else 0 := by
  unfold Session.refs
  rw [hcon, hown]
  by_cases hb : b = a
  · subst hb
    rw [Function.update_self, if_pos rfl]
    omega
  · rw [Function.update_of_ne hb, if_neg hb]
    omega

/-- A handle that is held after its neighbours' counts changed was held before, or is the one
that was referenced. -/
theorem Session.held_of_update {d : Int} (hcon : s'.world.consts m = s.world.consts m)
    (hown : s'.own = Function.update s.own a (s.own a + d)) {b : Bdd} (hb : s'.Held m b) :
    b = a ∨ s.Held m b := by
  by_cases hba : b = a
  · exact Or.inl hba
  · right
    unfold Session.Held at hb ⊢
    rw [hcon, hown, Function.update_of_ne hba] at hb
    exact hb

/-- A count changes by one. -/
theorem moved_recount (h : Accounted s m) (hf : s'.Fair m) (ha : (s.world.store m).Live a)
    {f : UInt64 → UInt64} {d : Int} (hd : d = 1 ∧ f = (· + 1) ∨ d = -1 ∧ f = (· - 1))
    (hw : s'.world = s.world.recount a f)
    (hown : s'.own = Function.update s.own a (s.own a + d)) : Moved m s s' := by
  have hi := h.resting.inv
  have hhas := (hi.table m h.made).nodes.has a ha
  have hlive : ∀ b, (s'.world.store m).Live b ↔ (s.world.store m).Live b := by
    rw [hw]
    exact recount_live hi h.made a f
  obtain ⟨hrest, hon⟩ := resting_recount h.resting h.made ha f
  rw [← hw] at hrest hon
  have hcon : s'.world.consts m = s.world.consts m := by
    rw [hw]
    rfl
  refine ⟨⟨hrest, ?_, ?_, ?_⟩, hon, ?_⟩
  · rw [hw]
    exact h.made
  · intro b hb
    rw [hlive]
    rcases Session.held_of_update hcon hown hb with rfl | hb
    · exact ha
    · exact h.live b hb
  · intro b hb
    have hc := h.counts b ((hlive b).mp hb)
    have hr := Session.refs_update hcon hown b
    by_cases hba : b = a
    · subst hba
      rw [if_pos rfl] at hr
      apply count_add hc hr
      · rw [hw, recount_refs_self s.world b f hhas]
        rcases hd with ⟨rfl, rfl⟩ | ⟨rfl, rfl⟩
        · exact Or.inl ⟨rfl, rfl⟩
        · exact Or.inr ⟨rfl, rfl⟩
      · unfold Session.refs
        have := hf.given b
        split <;> omega
      · exact hf.fits b
    · rw [if_neg hba] at hr
      rw [hw, recount_refs_of_ne s.world a f hba, hr]
      omega
  · intro b _
    rw [hw]
    rfl

/-- A node that an operation adds to the table has no references. -/
theorem Answered.fresh {w w' : World} {r : Bdd} {F : BoolFn} (h : Answered m t w w' r F) (hi : w.Inv)
    (ha : (w'.store m).Live a) (hm : w.made m = true) (hn : ¬ (w.store m).Live a) :
    (w.heap.get a).refCnt = 0 := by
  by_contra h0
  obtain ⟨k, hk, hl⟩ := hi.counted a h0
  have hkm : k ≠ m := by
    rintro rfl
    exact hn hl
  have hl' : (w'.store k).Live a := h.onward.live k a hk hl (by rw [h.frees])
  exact h.inv.disjoint k m a (by rw [h.made]; exact hk) (by rw [h.made]; exact hm) hkm hl' ha

/-- What is live after an operation, and its count. -/
theorem moved_call (h : Accounted s m) (hs : s.Fair m) (hf : s'.Fair m) {w₁ : World} {r : Bdd}
    {F : BoolFn} (hsh : Shrinks m s.world w₁) (hi₁ : w₁.Inv) (hans : Answered m t w₁ s'.world r F)
    (hrest : s'.world.Resting)
    (hown : s'.own = Function.update s.own r (s.own r + 1)) : Moved m s s' := by
  have hm₁ : w₁.made m = true := by
    rw [hsh.made]
    exact h.made
  have hcon : s'.world.consts m = s.world.consts m :=
    (hans.onward.consts m hm₁).trans hsh.consts
  have hfrees : ∀ a, s.Held m a → s'.world.heap.frees a = s.world.heap.frees a := by
    intro a ha
    rw [hans.frees]
    exact hsh.frees m a h.made (h.survives hs hsh ha)
  have hrefs : ∀ a, a ≠ r → (s'.world.heap.get a).refCnt = (s.world.heap.get a).refCnt := by
    intro a ha
    rw [hans.refsOther a ha]
    exact hsh.refs a
  have hon := hsh.onward.trans hans.onward
  refine ⟨⟨hrest, ?_, ?_, ?_⟩, hon, hfrees⟩
  · rw [hans.made]
    exact hm₁
  · intro a ha
    rcases Session.held_of_update hcon hown ha with rfl | ha
    · exact hans.stands.1
    · exact hon.live m a h.made (h.live a ha) (hfrees a ha)
  · intro a ha
    have hr := Session.refs_update hcon hown a
    -- a node that was not there has no references
    have hc : ((s.world.heap.get a).refCnt.toNat : Int) = s.refs m a := by
      by_cases hl : (w₁.store m).Live a
      · exact h.counts a (hsh.sub a hl)
      · have hz := hans.fresh hi₁ ha hm₁ hl
        have hno : ¬ s.Held m a := fun hh => hl (h.survives hs hsh hh)
        rw [← hsh.refs a, hz]
        unfold Session.refs
        unfold Session.Held at hno
        push Not at hno
        have hg := hs.given a
        rw [if_neg hno.2]
        have hz : ((0 : UInt64).toNat : Int) = 0 := rfl
        omega
    by_cases har : a = r
    · subst har
      rw [if_pos rfl] at hr
      apply count_add hc hr
      · left
        exact ⟨rfl, hans.refs.trans (congrArg (· + 1) (hsh.refs a))⟩
      · unfold Session.refs
        have := hf.given a
        split <;> omega
      · exact hf.fits a
    · rw [if_neg har] at hr
      rw [hrefs a har, hr]
      omega

/-- **One call of the client.** -/
theorem Moves.moved (h : Moves t m s s') (ha : Accounted s m) (hs : s.Fair m) (hf : s'.Fair m) :
    Moved m s s' := by
  have hi := ha.resting.inv
  have hm := ha.made
  cases h with
  | call n c r hu hrun hown =>
    obtain ⟨w₁, w₂, he, hent, hans⟩ := run_call hi hm (ha.resting.idle m hm) hrun
    have hsh := hent.shrinks
    have htop := ha.survives hs hsh (held_top s m)
    have hbot := ha.survives hs hsh (held_bot s m)
    have husable : Usable m c w₁ := by
      have hargs := hu w₂ he
      rw [hent.eq] at hargs
      simp only [withLock_store] at hargs
      constructor
      · rw [hsh.consts]
        exact htop
      · rw [hsh.consts]
        exact hbot
      · exact hargs
    obtain ⟨F, -, hans⟩ := hans husable
    have hrest : s'.world.Resting := by
      refine ⟨hans.inv, idle_of_others ha.resting (hans.made.trans hsh.made) hans.idle ?_⟩
      intro k hk
      rw [hans.others k hk]
      exact hsh.others k hk
    exact moved_call ha hs hf hsh (hsh.inv htop hbot) hans hrest hown
  | refBdd a hl hrun hown =>
    have he := exec_fetchAdd (m := m) (t := t) ((hi.table m hm).nodes.has a hl)
    have hw := run_op_eq he hrun
    exact moved_recount ha hf hl (Or.inl ⟨rfl, rfl⟩) hw.symm hown
  | derefBdd a hl hrun hown =>
    have he := exec_fetchSub (m := m) (t := t) ((hi.table m hm).nodes.has a hl)
    have hw := run_op_eq he hrun
    exact moved_recount ha hf hl (Or.inr ⟨rfl, rfl⟩) hw.symm hown
  | gc n c hrun hown =>
    rcases run_gc hi hm (ha.resting.idle m hm) t n with ⟨c', w₁, h1, hsh, hl, -⟩ | ⟨h1, -⟩
    · obtain ⟨-, rfl⟩ := Prod.mk.inj (Except.ok.inj (h1.symm.trans hrun))
      have hheld : ∀ a, s'.Held m a → s.Held m a := by
        intro a hh
        unfold Session.Held at hh ⊢
        rwa [hown, hsh.consts] at hh
      refine ⟨⟨⟨?_, ?_⟩, ?_, ?_, ?_⟩, hsh.onward, ?_⟩
      · exact hsh.inv (ha.survives hs hsh (held_top s m)) (ha.survives hs hsh (held_bot s m))
      · exact idle_of_others ha.resting hsh.made hl hsh.others
      · rw [hsh.made]
        exact hm
      · intro a hh
        exact ha.survives hs hsh (hheld a hh)
      · intro a hl
        rw [hsh.refs, ha.counts a (hsh.sub a hl)]
        unfold Session.refs
        rw [hown, hsh.consts]
      · intro a hh
        exact hsh.frees m a hm (ha.survives hs hsh hh)
    · cases h1.symm.trans hrun

/-- The counts of a new manager. -/
theorem Begins.accounted (h : Begins t m s) : Accounted s m := by
  obtain ⟨w, tableSize, cacheSize, varNum, n, hr, hw, hm, hinit, hown⟩ := h
  have hi := hr.resting hw
  rcases run_init hi.inv hm t tableSize cacheSize varNum n with ⟨w', hrun, hf⟩ | ⟨e, hrun, -⟩
  · obtain rfl := Except.ok.inj (hrun.symm.trans hinit)
    refine ⟨hf.resting hi, hf.here, ?_, ?_⟩
    · intro a ha
      rw [hf.kept]
      rcases ha with ha | ha
      · rw [hown] at ha
        omega
      · exact ha
    · intro a ha
      rw [hf.refs a ha]
      unfold Session.refs
      rw [hown, if_pos ((hf.kept a).mp ha)]
      rfl
  · cases hrun.symm.trans hinit

/-! ## Whole runs -/

variable {s : Nat → Session}

theorem History.accounted (h : History t m n s) (hf : ∀ i, i ≤ n → (s i).Fair m) :
    ∀ i, i ≤ n → Accounted (s i) m := by
  intro i
  induction i with
  | zero =>
    intro _
    exact h.begins.accounted
  | succ i ih =>
    intro hi
    have hle : i ≤ n := by omega
    exact ((h.moves i hi).moved (ih hle) (hf i hle) (hf (i + 1) hi)).accounted

theorem History.moved (h : History t m n s) (hf : ∀ i, i ≤ n → (s i).Fair m) {i : Nat} (hi : i < n) :
    Moved m (s i) (s (i + 1)) :=
  (h.moves i hi).moved (h.accounted hf i (Nat.le_of_lt hi)) (hf i (Nat.le_of_lt hi)) (hf (i + 1) hi)

/-! ## A history is a run -/

/-- The client is one of the callers of `Runs`. -/
theorem Moves.step {s s' : Session} (h : Moves t m s s') (ha : Accounted s m) (hf : s.Fair m) :
    Step t s.world s'.world := by
  have hi := ha.resting.inv
  have hm := ha.made
  cases h with
  | call n c r hu hrun hown =>
    refine .call m n c r hm (fun w₂ he => ?_) hrun
    obtain ⟨w₁, w₂', he', hent, -⟩ := run_call hi hm (ha.resting.idle m hm) hrun
    obtain rfl := (Prod.mk.inj (Except.ok.inj (he'.symm.trans he))).2
    have hargs := hu _ he
    have hsh := hent.shrinks
    rw [hent.eq] at hargs ⊢
    refine ⟨?_, ?_, hargs⟩
    · rw [withLock_store, withLock_consts, hsh.consts]
      exact ha.survives hf hsh (held_top s m)
    · rw [withLock_store, withLock_consts, hsh.consts]
      exact ha.survives hf hsh (held_bot s m)
  | refBdd a hl hrun hown => exact .refBdd m a hm hl hrun
  | derefBdd a hl hrun hown => exact .derefBdd m a hm hl hrun
  | gc n c hrun hown => exact .gc m n c hm hrun

theorem Begins.reach {s : Session} (h : Begins t m s) : Reach t s.world := by
  obtain ⟨w, tableSize, cacheSize, varNum, n, ⟨w₀, hf, hr⟩, hw, hm, hinit, -⟩ := h
  exact ⟨w₀, hf, hr.step hw (.init m n tableSize cacheSize varNum hm hinit)⟩

/-- Every state of a history is one that the thread reaches, with all constants in place. -/
theorem History.reach (h : History t m n s) (hf : ∀ i, i ≤ n → (s i).Fair m) {i : Nat} (hi : i ≤ n) :
    Reach t (s i).world ∧ (s i).world.Whole := by
  have hacc := h.accounted hf
  refine ⟨?_, (hacc i hi).resting.whole⟩
  induction i with
  | zero => exact h.begins.reach
  | succ i ih =>
    obtain ⟨w₀, hw₀, hr⟩ := ih (by omega)
    exact ⟨w₀, hw₀, hr.step (hacc i (by omega)).resting.whole
      ((h.moves i hi).step (hacc i (by omega)) (hf i (by omega)))⟩

end

/-! ## Calls that are carried out -/

instance (h : Heap) (a : Bdd) : Decidable (h.Has a) :=
  decidable_of_iff _ Option.isSome_iff_exists

instance (s : Store) (a : Bdd) : Decidable (s.Live a) := decidable_of_iff _ Store.mem_nodes

instance (m : Nat) (c : Call) (w : World) : Decidable (Usable m c w) :=
  decidable_of_iff ((w.store m).Live (w.consts m).trueId ∧ (w.store m).Live (w.consts m).falseId ∧
    ∀ a ∈ c.args, (w.store m).Live a)
    ⟨fun h => ⟨h.1, h.2.1, h.2.2⟩, fun h => ⟨h.top, h.bot, h.args⟩⟩

/-- A call, and the manager it is made on. -/
inductive Order where
  | init (m : Nat) (tableSize cacheSize : UInt64) (varNum : Nat)
  | call (m : Nat) (c : Call)
  | refBdd (m : Nat) (a : Bdd)
  | derefBdd (m : Nat) (a : Bdd)
  | gc (m : Nat)
  /-- the bytes are read by a manager of `k` variables -/
  | deserialize (m k : Nat) (bytes : List UInt8)

namespace Order

/-- The operands are there when the operation comes to use them. -/
def ready (t n m : Nat) (c : Call) (w : World) : Bool :=
  match run (exec m t) (enterOp n) w with
  | .ok (_, w₂) => Usable m c w₂
  | .error _ => false

/-- What a call that may be made leaves, if it returns. -/
def attempt {α : Type} (legal : Prop) [Decidable legal] (x : Except Stop α)
    (f : α → Option Session) : Option Session :=
  if legal then
    match x with
    | .ok y => f y
    | .error _ => none
  else none

/-- What the order leaves when thread `t` carries it out. -/
def obey (t n : Nat) : Order → Session → Option Session
  | .init m tableSize cacheSize varNum, ⟨w, own⟩ =>
    attempt (w.made m = false) (Manager.init m t tableSize cacheSize varNum n w)
      fun w' => some ⟨w', own⟩
  | .call m c, ⟨w, own⟩ =>
    attempt (w.made m = true ∧ ready t n m c w = true) (run (exec m t) (c.prog (w.consts m) n) w)
      fun (r, w') => some ⟨w', Function.update own r (own r + 1)⟩
  | .refBdd m a, ⟨w, own⟩ =>
    attempt (w.made m = true ∧ (w.store m).Live a) (run (exec m t) (Manager.refBdd a) w)
      fun (_, w') => some ⟨w', Function.update own a (own a + 1)⟩
  | .derefBdd m a, ⟨w, own⟩ =>
    attempt (w.made m = true ∧ (w.store m).Live a) (run (exec m t) (Manager.derefBdd a) w)
      fun (_, w') => some ⟨w', Function.update own a (own a - 1)⟩
  | .gc m, ⟨w, own⟩ =>
    attempt (w.made m = true) (run (exec m t) (Manager.gc n) w) fun (_, w') => some ⟨w', own⟩
  | .deserialize m k bytes, ⟨w, own⟩ =>
    attempt (w.made m = true ∧ (w.consts m).numVars = k)
      (run (execRead (sliceRead ()) m t) (Manager.deserialize true (w.consts m) n) (w, bytes))
      fun
        | (.ok _, w', _) => some ⟨w', own⟩
        | (.error _, _) => none

/-- The states in which the orders are carried out one after the other. -/
def states (t n : Nat) : List Order → Session → Nat → Session
  | [], s, _ => s
  | _ :: _, s, 0 => s
  | o :: l, s, i + 1 => states t n l ((o.obey t n s).getD s) i

/-- All orders are carried out. -/
def obeyed (t n : Nat) : List Order → Session → Bool
  | [], _ => true
  | o :: l, s =>
    match o.obey t n s with
    | some s' => obeyed t n l s'
    | none => false

/-- The order is one that a client of manager `m` can give. -/
def On (m : Nat) : Order → Prop
  | .call k _ | .refBdd k _ | .derefBdd k _ | .gc k => k = m
  | .init .. | .deserialize .. => False

instance (m : Nat) : (o : Order) → Decidable (o.On m)
  | .call k _ | .refBdd k _ | .derefBdd k _ | .gc k => inferInstanceAs (Decidable (k = m))
  | .init .. | .deserialize .. => inferInstanceAs (Decidable False)

/-- No reference is given back that the client does not have. -/
def honest (t n : Nat) : List Order → Session → Bool
  | [], _ => true
  | o :: l, s =>
    (match o with
      | .derefBdd _ a => decide (0 < s.own a)
      | _ => true) && honest t n l ((o.obey t n s).getD s)

section
variable {t m n : Nat} {o : Order} {l : List Order} {s s' : Session}

theorem attempt_eq {α : Type} {legal : Prop} [Decidable legal] {x : Except Stop α}
    {f : α → Option Session} (h : attempt legal x f = some s') :
    legal ∧ ∃ y, x = .ok y ∧ f y = some s' := by
  unfold attempt at h
  split at h
  · next hl =>
    cases x with
    | ok y => exact ⟨hl, y, rfl, h⟩
    | error e => cases h
  · cases h

theorem ready_usable {c : Call} {w : World} (h : ready t n m c w = true) {w₂ : World}
    (hw : run (exec m t) (enterOp n) w = .ok ((), w₂)) : Usable m c w₂ := by
  unfold ready at h
  rw [hw] at h
  exact of_decide_eq_true h

/-- An order that was obeyed is a call of the thread. -/
theorem obey_step (h : o.obey t n s = some s')
    (hs : ∀ m k bytes, o = .deserialize m k bytes → Serialized k bytes) :
    Step t s.world s'.world := by
  cases o with
  | init m tableSize cacheSize varNum =>
    obtain ⟨hm, w, hrun, hw⟩ := attempt_eq h
    obtain rfl := Option.some_inj.mp hw
    exact .init m n tableSize cacheSize varNum hm hrun
  | call m c =>
    obtain ⟨⟨hm, hu⟩, ⟨r, w⟩, hrun, hw⟩ := attempt_eq h
    obtain rfl := Option.some_inj.mp hw
    exact .call m n c r hm (fun w₂ => ready_usable hu) hrun
  | refBdd m a =>
    obtain ⟨⟨hm, ha⟩, ⟨r, w⟩, hrun, hw⟩ := attempt_eq h
    obtain rfl := Option.some_inj.mp hw
    exact .refBdd m a hm ha hrun
  | derefBdd m a =>
    obtain ⟨⟨hm, ha⟩, ⟨r, w⟩, hrun, hw⟩ := attempt_eq h
    obtain rfl := Option.some_inj.mp hw
    exact .derefBdd m a hm ha hrun
  | gc m =>
    obtain ⟨hm, ⟨c, w⟩, hrun, hw⟩ := attempt_eq h
    obtain rfl := Option.some_inj.mp hw
    exact .gc m n c hm hrun
  | deserialize m k bytes =>
    obtain ⟨⟨hm, hk⟩, ⟨r, w, x⟩, hrun, hw⟩ := attempt_eq h
    cases r with
    | error e => cases hw
    | ok r =>
      obtain rfl := Option.some_inj.mp hw
      exact .deserialize true (sliceRead ()) id bytes x m n r (sliceRead_delivers ()) hm
        (hk ▸ hs m k bytes rfl) hrun

/-- A client can have given it. -/
theorem obey_moves (h : o.obey t n s = some s') (ho : o.On m) : Moves t m s s' := by
  cases o with
  | init | deserialize => cases ho
  | call k c =>
    obtain rfl : k = m := ho
    obtain ⟨⟨-, hu⟩, ⟨r, w⟩, hrun, hw⟩ := attempt_eq h
    obtain rfl := Option.some_inj.mp hw
    exact .call n c r (fun w₂ he => (ready_usable hu he).args) hrun rfl
  | refBdd k a =>
    obtain rfl : k = m := ho
    obtain ⟨⟨-, ha⟩, ⟨r, w⟩, hrun, hw⟩ := attempt_eq h
    obtain rfl := Option.some_inj.mp hw
    exact .refBdd a ha hrun rfl
  | derefBdd k a =>
    obtain rfl : k = m := ho
    obtain ⟨⟨-, ha⟩, ⟨r, w⟩, hrun, hw⟩ := attempt_eq h
    obtain rfl := Option.some_inj.mp hw
    exact .derefBdd a ha hrun rfl
  | gc k =>
    obtain rfl : k = m := ho
    obtain ⟨-, ⟨c, w⟩, hrun, hw⟩ := attempt_eq h
    obtain rfl := Option.some_inj.mp hw
    exact .gc n c hrun rfl

theorem obeyed_cons (h : obeyed t n (o :: l) s = true) :
    ∃ s', o.obey t n s = some s' ∧ obeyed t n l s' = true ∧
      ∀ i, states t n (o :: l) s (i + 1) = states t n l s' i := by
  cases ho : o.obey t n s with
  | none => simp [obeyed, ho] at h
  | some s' =>
    refine ⟨s', rfl, ?_, fun i => ?_⟩
    · simpa [obeyed, ho] using h
    · simp [states, ho]

theorem states_zero (l : List Order) (s : Session) : states t n l s 0 = s := by
  cases l <;> rfl

/-- Orders carried out one after the other, whatever becomes of the constants. -/
theorem states_calls : ∀ (l : List Order) (s : Session), obeyed t n l s = true →
    (∀ m k bytes, .deserialize m k bytes ∈ l → Serialized k bytes) →
    Relation.ReflTransGen (Step t) s.world (states t n l s l.length).world := by
  intro l
  induction l with
  | nil => exact fun s _ _ => .refl
  | cons o l ih =>
    intro s h hs
    obtain ⟨s', ho, hl, hi⟩ := obeyed_cons h
    refine .head (obey_step ho fun m k bytes hb => hs m k bytes ?_) ?_
    · rw [hb]
      exact List.mem_cons_self
    · rw [List.length_cons, hi]
      exact ih s' hl fun m k bytes hb => hs m k bytes (List.mem_cons_of_mem _ hb)

theorem states_moves : ∀ (l : List Order) (s : Session), obeyed t n l s = true →
    (∀ o ∈ l, o.On m) → ∀ i, i < l.length →
      Moves t m (states t n l s i) (states t n l s (i + 1)) := by
  intro l
  induction l with
  | nil => exact fun s _ _ i hi => absurd hi (Nat.not_lt_zero i)
  | cons o l ih =>
    intro s h hon i hlt
    obtain ⟨s', ho, hl, hi⟩ := obeyed_cons h
    rw [hi]
    cases i with
    | zero =>
      rw [states_zero, states_zero]
      exact obey_moves ho (hon o List.mem_cons_self)
    | succ i =>
      rw [hi]
      exact ih s' hl (fun o ho => hon o (List.mem_cons_of_mem _ ho)) i (by simpa using hlt)

/-- The client has `0` to `k` references to each handle. -/
def Few (k : Int) (s : Session) : Prop := ∀ a, 0 ≤ s.own a ∧ s.own a ≤ k

theorem Few.update {k : Int} {w w' : World} {own : Bdd → Int} (h : Few k ⟨w, own⟩) {a : Bdd} {c : Int}
    (h0 : 0 ≤ c) (hc : c ≤ own a + 1) : Few (k + 1) ⟨w', Function.update own a c⟩ := by
  intro b
  show 0 ≤ Function.update own a c b ∧ Function.update own a c b ≤ k + 1
  have hb : 0 ≤ own b ∧ own b ≤ k := h b
  by_cases hba : b = a
  · subst hba
    rw [Function.update_self]
    omega
  · rw [Function.update_of_ne hba]
    omega

theorem Few.succ {k : Int} {w w' : World} {own : Bdd → Int} (h : Few k ⟨w, own⟩) :
    Few (k + 1) ⟨w', own⟩ := by
  intro b
  have hb : 0 ≤ own b ∧ own b ≤ k := h b
  show 0 ≤ own b ∧ own b ≤ k + 1
  omega

theorem obey_few (h : o.obey t n s = some s') (ho : honest t n (o :: l) s = true) {k : Int}
    (hf : Few k s) : Few (k + 1) s' := by
  obtain ⟨w, own⟩ := s
  cases o with
  | init m tableSize cacheSize varNum =>
    obtain ⟨-, w', -, hw⟩ := attempt_eq h
    exact Option.some_inj.mp hw ▸ hf.succ
  | call m c =>
    obtain ⟨-, ⟨r, w'⟩, -, hw⟩ := attempt_eq h
    have hr := (hf r).1
    exact Option.some_inj.mp hw ▸ hf.update (Int.le_add_one hr) (Int.le_refl _)
  | refBdd m a =>
    obtain ⟨-, ⟨r, w'⟩, -, hw⟩ := attempt_eq h
    have ha := (hf a).1
    exact Option.some_inj.mp hw ▸ hf.update (Int.le_add_one ha) (Int.le_refl _)
  | derefBdd m a =>
    obtain ⟨-, ⟨r, w'⟩, -, hw⟩ := attempt_eq h
    have ha : 0 < own a := of_decide_eq_true (Bool.and_eq_true _ _ ▸ ho).1
    exact Option.some_inj.mp hw ▸ hf.update (by omega) (by omega)
  | gc m =>
    obtain ⟨-, ⟨c, w'⟩, -, hw⟩ := attempt_eq h
    exact Option.some_inj.mp hw ▸ hf.succ
  | deserialize m k bytes =>
    obtain ⟨-, ⟨r, w', x⟩, -, hw⟩ := attempt_eq h
    cases r with
    | error e => cases hw
    | ok r => exact Option.some_inj.mp hw ▸ hf.succ

theorem states_few : ∀ (l : List Order) (s : Session) (k : Int), obeyed t n l s = true →
    honest t n l s = true → Few k s → ∀ i, i ≤ l.length → Few (k + i) (states t n l s i) := by
  intro l
  induction l with
  | nil =>
    intro s k _ _ hf i hi
    obtain rfl : i = 0 := Nat.le_zero.mp hi
    simpa [states] using hf
  | cons o l ih =>
    intro s k h hh hf i hi
    obtain ⟨s', ho, hl, hi'⟩ := obeyed_cons h
    cases i with
    | zero =>
      rw [states_zero]
      simpa using hf
    | succ i =>
      have hh' : honest t n l s' = true := by
        have := (Bool.and_eq_true _ _ ▸ hh).2
        rwa [ho] at this
      rw [hi', Nat.cast_succ, add_comm (i : Int) 1, ← add_assoc]
      exact ih s' (k + 1) hl hh' (obey_few ho hh hf) i (by simpa using hi)

/-- Orders of a client that starts with a new manager, and gives back what it has. -/
theorem states_history (hb : Begins t m s) (hl : obeyed t n l s = true) (hon : ∀ o ∈ l, o.On m)
    (hh : honest t n l s = true) (hlen : l.length < 2 ^ 63) :
    History t m l.length (states t n l s) ∧
      ∀ i, i ≤ l.length → (states t n l s i).Fair m := by
  refine ⟨⟨?_, states_moves l s hl hon⟩, fun i hi => ?_⟩
  · rw [states_zero]
    exact hb
  · obtain ⟨w, tableSize, cacheSize, varNum, k, -, -, -, -, hown⟩ := hb
    have hnone : Few 0 s := by
      intro a
      rw [hown a]
      omega
    have hfew := states_few l s 0 hl hh hnone i hi
    refine ⟨fun a => (hfew a).1, fun a => ?_⟩
    have := (hfew a).2
    unfold Session.refs
    split <;> omega

end

end Order

/-! ## A manager that was in use -/

theorem single_begins (tableSize cacheSize : UInt64) (varNum : Nat)
    (ht : capacityExp tableSize % 64 < 31) (hv : varNum * 8 < 2 ^ 63) :
    Begins 0 0 ⟨single tableSize cacheSize varNum, fun _ => 0⟩ := by
  obtain ⟨hinit, -⟩ := single_init tableSize cacheSize varNum ht hv
  exact ⟨blank, tableSize, cacheSize, varNum, _, ⟨blank, blank_fresh, .refl⟩, blank_whole, rfl, hinit,
    fun _ => rfl⟩

/-- The node of variable 0. -/
def firstVar (w : World) : Bdd := (w.consts 0).vars.getD 0 0

/-- A manager of two variables. -/
@[irreducible] def fresh : World := single 8 8 2
@[irreducible] def x0 : Bdd := firstVar fresh
@[irreducible] def x1 : Bdd := (fresh.consts 0).vars.getD 1 0

/-- Where the allocator puts the conjunction of the variables, and then their disjunction. -/
def both : Bdd := 7
def either : Bdd := 8

/-- A client computes the two, gives the disjunction back, collects, and computes the conjunction
once more. -/
def errand : List Order :=
  [.call 0 (.and x0 x1), .call 0 (.or x0 x1), .derefBdd 0 either, .gc 0, .call 0 (.and x0 x1)]

@[irreducible] def errandStates : Nat → Session := Order.states 0 60 errand ⟨fresh, fun _ => 0⟩

theorem errand_history : History 0 0 5 errandStates ∧ ∀ i, i ≤ 5 → (errandStates i).Fair 0 := by
  have hb : Begins 0 0 ⟨fresh, fun _ => 0⟩ := by
    unfold fresh
    exact single_begins 8 8 2 (by decide) (by decide)
  have hon : ∀ o ∈ errand, o.On 0 := by
    unfold errand
    decide
  unfold errandStates
  exact Order.states_history (l := errand) hb (by decide +kernel) hon (by decide +kernel) (by decide)

theorem errand_reach {i : Nat} (hi : i ≤ 5) :
    Reach 0 (errandStates i).world ∧ (errandStates i).world.Whole ∧
      (errandStates i).world.made 0 = true := by
  obtain ⟨hh, hf⟩ := errand_history
  exact ⟨(hh.reach hf hi).1, (hh.reach hf hi).2, (hh.accounted hf i hi).made⟩

/-! ## Constants that are given away -/

/-- A state that calls of thread `t` lead to from nothing, whatever becomes of the constants. -/
def Called (t : Nat) (w : World) : Prop :=
  ∃ w₀ : World, w₀.Fresh ∧ Relation.ReflTransGen (Step t) w₀ w

/-- What `serialize` writes for the variable of a new manager. -/
def variableBytes : List UInt8 :=
  match run (execWrite (vecWrite Unit) 0 0)
      (serialize ((single 8 8 1).consts 0) (((single 8 8 1).consts 0).vars.getD 0 0) 8)
      (single 8 8 1, []) with
  | .ok (_, _, bytes) => bytes
  | .error _ => []

theorem variableBytes_serialized : Serialized 1 variableBytes := by
  obtain ⟨hr, hw, hm⟩ := single_ready 8 8 1 (by decide) (by decide)
  have hn := (hr.resting hw).now hm
  have ha : ((single 8 8 1).store 0).Live (((single 8 8 1).consts 0).vars.getD 0 0) := by
    decide +kernel
  refine ⟨Unit, _, 0, 0, 8, _, _, ⟨hn, by decide +kernel⟩, by decide +kernel, ha,
    by decide +kernel, by decide +kernel, ?_⟩
  unfold variableBytes
  rcases run_serialize hn ha Unit 0 8 with ⟨hrun, -⟩ | ⟨-, hno⟩
  · rw [hrun]
    exact ⟨_, rfl⟩
  · exact absurd (by decide +kernel) hno

/-- The references that manager 0 itself holds are given back and its nodes are freed.  Where
they were, the allocator puts those of manager 1; then manager 0 reads a variable. -/
def strayOrders : List Order :=
  [.init 0 8 8 1, .derefBdd 0 1, .derefBdd 0 2, .derefBdd 0 3, .derefBdd 0 4, .gc 0,
    .init 1 8 8 1, .deserialize 0 1 variableBytes]

def strayStart : Session := ⟨{ blank with heap := .empty fun i => i - 3 }, fun _ => 0⟩

@[irreducible] def astray : World := (Order.states 0 40 strayOrders strayStart 8).world

/-- ... and then it collects. -/
@[irreducible] def astrayGc : World :=
  (Order.states 0 40 (strayOrders ++ [.gc 0]) strayStart 9).world

theorem strayStart_fresh : strayStart.world.Fresh := ⟨fun _ => rfl, fun _ => rfl, fun _ => rfl⟩

theorem astray_called : Called 0 astray ∧ Called 0 astrayGc := by
  have hbytes : ∀ m k bytes, Order.deserialize m k bytes ∈ strayOrders ++ [.gc 0] →
      Serialized k bytes := by
    intro m k bytes h
    simp only [strayOrders, List.cons_append, List.nil_append, List.mem_cons, List.not_mem_nil,
      reduceCtorEq, false_or, or_false, Order.deserialize.injEq] at h
    obtain ⟨-, rfl, rfl⟩ := h
    exact variableBytes_serialized
  unfold astray astrayGc
  constructor
  · exact ⟨_, strayStart_fresh, Order.states_calls strayOrders strayStart (by decide +kernel)
      fun m k bytes h => hbytes m k bytes (List.mem_append_left _ h)⟩
  · exact ⟨_, strayStart_fresh, Order.states_calls _ strayStart (by decide +kernel) hbytes⟩

end Manager

end Tobdd
