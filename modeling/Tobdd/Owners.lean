import Tobdd.Housekeeping

/-!
# What a client can rely on

    History.owned_survives: what is held all the time is never freed and stands for one function
    History.answers: an operation on handles that are held returns what it should
-/

namespace Tobdd

open Resume Diagram

namespace Manager

open World

/-! ## Answers -/

section
variable {t m n : Nat} {s : Nat → Session} {a : Bdd}

/-- The operation returns, and what it answers stands for the function of its operands. -/
def Answers (t m : Nat) (w : World) (c : Call) : Prop :=
  ∃ N, ∀ n, N ≤ n → ∃ r w' F, run (exec m t) (c.prog (w.consts m) n) w = .ok (r, w') ∧
    c.Spec (w.Stands m) F ∧ w'.Stands m r F

theorem Call.Spec.unique {S : Bdd → BoolFn → Prop} (hS : ∀ a f f', S a f → S a f' → f = f')
    {c : Call} {F F' : BoolFn} (h : c.Spec S F) (h' : c.Spec S F') : F = F' := by
  cases c with
  | not a =>
    obtain ⟨f, h1, rfl⟩ := h
    obtain ⟨f', h1', rfl⟩ := h'
    rw [hS a f f' h1 h1']
  | and a b | or a b | comp a b =>
    obtain ⟨f, g, h1, h2, rfl⟩ := h
    obtain ⟨f', g', h1', h2', rfl⟩ := h'
    rw [hS a f f' h1 h1', hS b g g' h2 h2']

/-- What a collection leaves of the operands that are held. -/
theorem Accounted.usable {s : Session} (h : Accounted s m) (hf : s.Fair m) {c : Call}
    (hargs : ∀ a ∈ c.args, s.Held m a) {w₁ : World} (hs : Shrinks m s.world w₁) : Usable m c w₁ := by
  constructor
  · rw [hs.consts]
    exact h.survives hf hs (held_top s m)
  · rw [hs.consts]
    exact h.survives hf hs (held_bot s m)
  · intro a ha
    exact h.survives hf hs (hargs a ha)

/-- What an operation on handles that are held answers. -/
theorem Accounted.call_meets {s : Session} (h : Accounted s m) (hf : s.Fair m) {c : Call}
    (hargs : ∀ a ∈ c.args, s.Held m a) {r : Bdd} {w' : World}
    (hrun : run (exec m t) (c.prog (s.world.consts m) n) s.world = .ok (r, w')) :
    ∃ F, c.Spec (s.world.Stands m) F ∧ w'.Stands m r F := by
  have hi := h.resting.inv
  have hm := h.made
  obtain ⟨w₁, w₂, -, hent, hans⟩ := run_call hi hm (h.resting.idle m hm) hrun
  have hs := hent.shrinks
  obtain ⟨F₁, hspec₁, hans⟩ := hans (h.usable hf hargs hs)
  obtain ⟨F, hspec⟩ := Call.exists_spec (S := s.world.Stands m) (c := c) fun a ha => by
    have hla := h.live a (hargs a ha)
    exact ((hi.table m hm).nodes.denotes hla).imp fun f hd => ⟨hla, hd⟩
  -- the operands stand for the same functions after the clean-up
  have hspec' : c.Spec (w₁.Stands m) F := hspec.mono fun a ha f hst =>
    hs.onward.stands m a f hm hst (hs.frees m a hm (h.survives hf hs (hargs a ha)))
  have hm₁ : w₁.made m = true := by
    rw [hs.made]
    exact hm
  have hi₁ := hs.inv (h.survives hf hs (held_top s m)) (h.survives hf hs (held_bot s m))
  have heq : F₁ = F := Call.Spec.unique (fun a f f' h1 h2 =>
    (hi₁.table m hm₁).nodes.functional h1.2 h2.2) hspec₁ hspec'
  exact ⟨F, hspec, heq ▸ hans.stands⟩

/-- An operation on handles that are held. -/
theorem Accounted.call_answers {s : Session} (h : Accounted s m) (hf : s.Fair m)
    (hroom : Spacious s.world m) {c : Call} (hargs : ∀ a ∈ c.args, s.Held m a) (t : Nat) :
    Answers t m s.world c := by
  have hm := h.made
  refine ⟨2 * s.world.heap.brk + (s.world.consts m).numVars + 2, fun n hn => ?_⟩
  obtain ⟨r, w', hrun⟩ := run_call_total h.resting.inv hm (h.resting.idle m hm) hroom
    (enough_of_le hn) (fun _ => h.usable hf hargs) t
  obtain ⟨F, hspec, hst⟩ := h.call_meets hf hargs hrun
  exact ⟨r, w', F, hrun, hspec, hst⟩

end

/-! ## Clients on a manager that was just made -/

/-- A run that goes on after `n` calls. -/
def extend (s : Nat → Session) (n : Nat) (x : Session) : Nat → Session :=
  fun i => if i ≤ n then s i else x

/-- The states in which more and more references to `a` are taken. -/
def taking (w : World) (a : Bdd) : Nat → Session
  | 0 => ⟨w, fun _ => 0⟩
  | k + 1 => ⟨(taking w a k).world.recount a (· + 1),
      Function.update (taking w a k).own a ((taking w a k).own a + 1)⟩

section
variable {t m n : Nat} {s : Nat → Session} {x : Session} {w : World} {a : Bdd} {g : Consts}

/-- The recursion does not come back from a node that was freed, nor where the memo table cannot
be read. -/
theorem notRec_stuck (hT : a ≠ g.trueId) (hF : a ≠ g.falseId)
    (hc : ∀ v, (w.mgr m).notCache.get (splitmix64 (addr a)) a = .ok v → v = 0 ∧ ¬ w.heap.Has a)
    (t n : Nat) : ∃ e, run (exec m t) (notRec g n a) w = .error e := by
  cases n with
  | zero => exact ⟨.spin, rfl⟩
  | succ n =>
    unfold notRec
    rw [if_neg hT, if_neg hF]
    cases hv : (w.mgr m).notCache.get (splitmix64 (addr a)) a with
    | error e => exact ⟨e, run_step_error (exec_notGet_error hv)⟩
    | ok v =>
      obtain ⟨rfl, ha⟩ := hc v hv
      refine ⟨.fault, (run_step_ok (exec_notGet_ok hv)).trans ?_⟩
      have hif : ∀ q : Prog ops Bdd, (if (0 : Bdd) ≠ 0 then Prog.ret 0 else q) = q :=
        fun _ => if_neg (not_not.mpr rfl)
      exact (congrArg (fun p => run _ p w) (hif _)).trans (run_step_error (exec_low_fault ha))

/-- ... and so does not the operation, where `enter_op` finds nothing to do. -/
theorem not_stuck (hl : w.Idle m) (h : ¬ Loaded w m)
    (hT : a ≠ (w.consts m).trueId) (hF : a ≠ (w.consts m).falseId)
    (hc : ∀ v, (w.mgr m).notCache.get (splitmix64 (addr a)) a = .ok v → v = 0 ∧ ¬ w.heap.Has a)
    (t : Nat) : ¬ Answers t m w (.not a) := by
  rintro ⟨N, hN⟩
  obtain ⟨r, w', F, hrun, -⟩ := hN N (Nat.le_refl N)
  rw [Call.prog_eq, operation_eq] at hrun
  replace hrun := (run_bind ..).symm.trans hrun
  rw [run_enterOp_roomy hl h] at hrun
  obtain ⟨e, he⟩ := notRec_stuck (w := w.withLock m ⟨[t], none⟩) (m := m) hT hF
    (by rw [withLock_mgr]; exact hc) t N
  unfold answer at hrun
  replace hrun := (run_bind ..).symm.trans hrun
  have hrec : Call.recur (w.consts m) N (.not a) = notRec (w.consts m) N a := rfl
  rw [hrec, he] at hrun
  cases hrun

theorem extend_last (s : Nat → Session) (n : Nat) (x : Session) : extend s n x (n + 1) = x :=
  if_neg (by omega)

theorem History.snoc (h : History t m n s) (hx : Moves t m (s n) x) :
    History t m (n + 1) (extend s n x) := by
  constructor
  · exact h.begins
  · intro i hi
    unfold extend
    rw [if_pos (by omega)]
    by_cases hin : i < n
    · rw [if_pos (by omega)]
      exact h.moves i hin
    · obtain rfl : i = n := by omega
      rw [if_neg (by omega)]
      exact hx

/-- What holds of each state of a run and of one more. -/
theorem extend_all {P : Session → Prop} (h : ∀ i, i ≤ n → P (s i)) (hx : P x) :
    ∀ i, i ≤ n + 1 → P (extend s n x i) := by
  intro i hi
  unfold extend
  by_cases hin : i ≤ n
  · rw [if_pos hin]
    exact h i hin
  · rw [if_neg hin]
    exact hx

theorem taking_spec (hi : w.Resting) (hm : w.made m = true) (ha : (w.store m).Live a) (k : Nat) :
    (taking w a k).world = w.recount a (· + UInt64.ofNat k) ∧ (taking w a k).world.Resting ∧
      (taking w a k).world.made m = true ∧ ((taking w a k).world.store m).Live a ∧
      (taking w a k).own = Function.update (fun _ => 0) a (k : Int) := by
  induction k with
  | zero =>
    refine ⟨?_, hi, hm, ha, ?_⟩
    · exact (recount_self w a fun c => UInt64.add_zero c).symm
    · exact (Function.update_eq_self a fun _ => (0 : Int)).symm
  | succ k ih =>
    obtain ⟨hw, hr, hmk, hl, hown⟩ := ih
    have hlive := (recount_live hr.inv hmk a (· + 1) a).mpr hl
    refine ⟨?_, (resting_recount hr hmk hl (· + 1)).1, hmk, hlive, ?_⟩
    · show (taking w a k).world.recount a (· + 1) = _
      rw [hw, recount_recount]
      congr 1
      funext c
      show c + UInt64.ofNat k + 1 = c + UInt64.ofNat (k + 1)
      rw [UInt64.ofNat_add, UInt64.add_assoc]
      rfl
    · show Function.update (taking w a k).own a ((taking w a k).own a + 1) = _
      rw [hown, Function.update_self, Function.update_idem]
      rfl

theorem taking_history (hb : Begins t m ⟨w, fun _ => 0⟩) (hi : w.Resting) (hm : w.made m = true)
    (ha : (w.store m).Live a) (n : Nat) : History t m n (taking w a) := by
  constructor
  · exact hb
  · intro i _
    obtain ⟨-, hr, hmi, hl, -⟩ := taking_spec hi hm ha i
    have he := exec_fetchAdd (m := m) (t := t) ((hr.inv.table m hmi).nodes.has a hl)
    exact .refBdd a hl (run_step_ok he) rfl

/-- What `gc` of thread 0 leaves. -/
def afterGc (w : World) (n : Nat) : World :=
  match run (exec 0 0) (gc n) w with
  | .ok (_, w') => w'
  | .error _ => w

/-- **The collector frees what has the count 0**, here for once a node that is held. -/
theorem afterGc_uncounted (hi : w.Resting) (hm : w.made 0 = true) (ha : (w.store 0).Live a)
    (hrefs : ∀ b, (w.store 0).Live b → (w.heap.get b).refCnt ≠ 0)
    (hT : a ≠ (w.consts 0).trueId) (hF : a ≠ (w.consts 0).falseId) {n : Nat}
    (hn : Enough (w.recount a (· - 1)) 0 n) :
    (∃ c, run (exec 0 0) (gc n) (w.recount a (· - 1)) =
      .ok (c, afterGc (w.recount a (· - 1)) n)) ∧
    (afterGc (w.recount a (· - 1)) n).Inv ∧ (afterGc (w.recount a (· - 1)) n).made 0 = true ∧
    (afterGc (w.recount a (· - 1)) n).Idle 0 ∧
    (afterGc (w.recount a (· - 1)) n).consts 0 = w.consts 0 := by
  obtain ⟨hr, -⟩ := resting_recount hi hm ha (· - 1)
  have hl := hi.whole 0 hm
  rcases run_gc hr.inv hm (hr.idle 0 hm) 0 n with ⟨c, w', hrun, hs, hidle, -⟩ | ⟨-, h⟩
  · have hw : afterGc (w.recount a (· - 1)) n = w' := by
      unfold afterGc
      rw [hrun]
    have hkeep : ∀ b, (w.store 0).Live b → b ≠ a → (w'.store 0).Live b := by
      intro b hb hba
      apply hs.kept b b ((recount_live hi.inv hm a _ b).mpr hb) _ .refl
      rw [recount_refs_of_ne w a _ hba]
      exact hrefs b hb
    rw [hw]
    refine ⟨⟨c, hrun⟩, hs.inv (hkeep _ hl.1 hT.symm) (hkeep _ hl.2 hF.symm), ?_, hidle, hs.consts⟩
    rw [hs.made]
    exact hm
  · exact absurd hn h

theorem firstVar_kept {tableSize cacheSize : UInt64} {varNum : Nat} {w₀ : World}
    (hf : Founded 0 tableSize cacheSize varNum w₀ w) (h0 : 0 < varNum) :
    (w.store 0).Live (firstVar w) ∧ (w.consts 0).Kept (firstVar w) := by
  obtain ⟨v, hv, hst⟩ := hf.var 0 h0
  have hx : firstVar w = v := by
    unfold firstVar
    rw [List.getD_eq_getElem?_getD, hv]
    rfl
  rw [hx]
  exact ⟨hst.1, (hf.kept v).mp hst.1⟩

/-- Manager 0 has just been made in `w`; `v` is what the collector leaves when the count of its
node `a` was taken to 0. -/
structure Robbed (w : World) (a : Bdd) (v : World) : Prop where
  begins : Begins 0 0 ⟨w, fun _ => 0⟩
  resting : w.Resting
  made : w.made 0 = true
  live : (w.store 0).Live a
  run : ∃ n c, run (exec 0 0) (gc n) (w.recount a (· - 1)) = .ok (c, v)
  kept : (w.consts 0).Kept a
  kept' : (v.consts 0).Kept a
  roomy : v.Roomy 0
  gone : ¬ (v.store 0).Live a
  stuck : ¬ Answers 0 0 v (.not a)

variable {v : World}

theorem Robbed.snoc (hr : Robbed w a v) (h : History 0 0 n s)
    (hw : (s n).world = w.recount a (· - 1)) :
    History 0 0 (n + 1) (extend s n ⟨v, (s n).own⟩) := by
  obtain ⟨N, c, hrun⟩ := hr.run
  rw [← hw] at hrun
  exact h.snoc (.gc N c hrun rfl)

/-- Taking references until the count is 0 again. -/
theorem Robbed.hoard (hr : Robbed w a v) (k : Nat) (hk : ∀ c : UInt64, c + UInt64.ofNat k = c - 1) :
    History 0 0 (k + 1) (extend (taking w a) k ⟨v, (taking w a k).own⟩) ∧
    ∀ i, i ≤ k + 1 →
      (∀ b, 0 ≤ (extend (taking w a) k ⟨v, (taking w a k).own⟩ i).own b) ∧
      (extend (taking w a) k ⟨v, (taking w a k).own⟩ i).Held 0 a := by
  have hspec := taking_spec hr.resting hr.made hr.live
  have hown : ∀ i b, 0 ≤ (taking w a i).own b := by
    intro i b
    obtain ⟨-, -, -, -, h⟩ := hspec i
    rw [h]
    by_cases hb : b = a
    · subst hb
      rw [Function.update_self]
      omega
    · rw [Function.update_of_ne hb]
  constructor
  · apply hr.snoc (taking_history hr.begins hr.resting hr.made hr.live k)
    rw [(hspec k).1]
    congr 1
    funext c
    exact hk c
  · apply extend_all (P := fun x => (∀ b, 0 ≤ x.own b) ∧ x.Held 0 a)
    · intro i _
      refine ⟨hown i, Or.inr ?_⟩
      rw [(hspec i).1]
      exact hr.kept
    · exact ⟨hown k, Or.inr hr.kept'⟩

/-- Giving back a reference that was not taken. -/
theorem Robbed.overdraw (hr : Robbed w a v) : ∃ s, History 0 0 2 s ∧
    (∀ i, i ≤ 2 → ∀ b, (s i).refs 0 b < 2 ^ 64) ∧ (s 2).world = v ∧ (s 2).Held 0 a := by
  have hhas := (hr.resting.inv.table 0 hr.made).nodes.has a hr.live
  obtain ⟨s, hs, hw, hown⟩ : ∃ s, History 0 0 1 s ∧ (s 1).world = w.recount a (· - 1) ∧
      ∀ i, i ≤ 1 → ∀ b, (s i).own b ≤ 0 := by
    have hstart : History 0 0 0 fun _ => ⟨w, fun _ => 0⟩ := ⟨hr.begins, fun i hi => by omega⟩
    have hback : Moves 0 0 ⟨w, fun _ => 0⟩
        ⟨w.recount a (· - 1), Function.update (fun _ => 0) a (0 - 1)⟩ :=
      .derefBdd a hr.live (run_step_ok (exec_fetchSub hhas)) rfl
    refine ⟨_, hstart.snoc hback, rfl, ?_⟩
    apply extend_all (P := fun x => ∀ b, x.own b ≤ 0)
    · intro i _ b
      exact Int.le_refl 0
    · intro b
      show Function.update (fun _ : Bdd => (0 : Int)) a (0 - 1) b ≤ 0
      by_cases hb : b = a
      · subst hb
        rw [Function.update_self]
        omega
      · rw [Function.update_of_ne hb]
  refine ⟨_, hr.snoc hs hw, ?_, rfl, Or.inr hr.kept'⟩
  intro i hi b
  have hle : (extend s 1 ⟨v, (s 1).own⟩ i).own b ≤ 0 :=
    extend_all (P := fun x => ∀ b, x.own b ≤ 0) (x := ⟨v, (s 1).own⟩) hown
      (hown 1 (Nat.le_refl 1)) i hi b
  unfold Session.refs
  split <;> omega

end

/-- What is left of a new manager when the count of its first variable was taken to 0 before the
collector came. -/
@[irreducible] def robbed : World := afterGc (fresh.recount x0 (· - 1)) 60

theorem robbed_cells : (robbed.heap.cell x0).isNone = true ∧
    ¬ shl64 (robbed.mgr 0).set.sizeExp * MAX_LOAD_FACTOR ≤ (robbed.mgr 0).set.numEntry ∧
    x0 ≠ (robbed.consts 0).trueId ∧ x0 ≠ (robbed.consts 0).falseId ∧
    ((robbed.mgr 0).notCache.get (splitmix64 (addr x0)) x0).toOption = some 0 ∧
    (robbed.mgr 0).set.sizeExp % 64 < 30 ∧ (robbed.mgr 0).notCache.sizeExp % 64 < 30 := by
  decide +kernel

theorem robbed_caches (c : Memo) : ((robbed.mgr 0).cache c).sizeExp % 64 < 30 := by
  cases c <;> decide +kernel

theorem fresh_small : 2 * (fresh.recount x0 (· - 1)).heap.brk < 60 ∧
    ((fresh.recount x0 (· - 1)).consts 0).numVars + 1 < 60 ∧
    x0 ≠ (fresh.consts 0).trueId ∧ x0 ≠ (fresh.consts 0).falseId := by
  decide +kernel

theorem fresh_founded : Founded 0 8 8 2 blank fresh ∧ Begins 0 0 ⟨fresh, fun _ => 0⟩ := by
  unfold fresh
  exact ⟨(single_init 8 8 2 (by decide) (by decide)).2, single_begins 8 8 2 (by decide) (by decide)⟩

theorem fresh_roomy : fresh.Roomy 0 := by
  obtain ⟨hf, -⟩ := fresh_founded
  have hexp : capacityExp 8 % 64 < 30 := by decide
  constructor
  · rw [hf.tableExp]
    exact hexp
  · rw [hf.notExp]
    exact hexp
  · intro c
    rw [hf.cacheExp]
    exact hexp

theorem x0_kept : (fresh.store 0).Live x0 ∧ (fresh.consts 0).Kept x0 := by
  unfold x0
  exact firstVar_kept fresh_founded.1 (by decide)

/-- The collection that takes the first variable away. -/
theorem fresh_gc : (∃ c, run (exec 0 0) (gc 60) (fresh.recount x0 (· - 1)) = .ok (c, robbed)) ∧
    robbed.Inv ∧ robbed.made 0 = true ∧ robbed.Idle 0 ∧ robbed.consts 0 = fresh.consts 0 := by
  obtain ⟨hf, -⟩ := fresh_founded
  have hrest := hf.resting blank_fresh.resting
  have hm := hf.here
  obtain ⟨hbrk, hvars, hT, hF⟩ := fresh_small
  have hne : ∀ b, (fresh.store 0).Live b → (fresh.heap.get b).refCnt ≠ 0 := by
    intro b hb
    rw [hf.refs b hb]
    decide
  have hafter := afterGc_uncounted hrest hm x0_kept.1 hne hT hF (n := 60) ⟨hbrk, hvars⟩
  have hr : afterGc (fresh.recount x0 (· - 1)) 60 = robbed := by
    unfold robbed
    rfl
  rwa [hr] at hafter

/-- The first variable can be taken away. -/
theorem fresh_robbed : Robbed fresh x0 robbed := by
  obtain ⟨hf, hb⟩ := fresh_founded
  have hrest := hf.resting blank_fresh.resting
  have hm := hf.here
  obtain ⟨hl, hk⟩ := x0_kept
  obtain ⟨hcell, hload, hT', hF', hcache, hset, hnot⟩ := robbed_cells
  obtain ⟨⟨c, hrun⟩, hinv, hmade, hidle, hcon⟩ := fresh_gc
  have hno : ¬ robbed.heap.Has x0 := by
    rintro ⟨n, hn⟩
    rw [hn] at hcell
    cases hcell
  refine ⟨hb, hrest, hm, hl, ⟨60, c, hrun⟩, hk, hcon.symm ▸ hk, ⟨hset, hnot, robbed_caches⟩, ?_, ?_⟩
  · intro hlive
    exact hno ((hinv.table 0 hmade).nodes.has x0 hlive)
  · apply not_stuck hidle hload hT' hF'
    intro u hu
    rw [hu] at hcache
    exact ⟨Option.some.inj hcache, hno⟩

theorem add_max (c : UInt64) : c + UInt64.ofNat (2 ^ 64 - 1) = c - 1 := by
  rw [UInt64.sub_eq_add_neg]
  rfl

/-- A manager whose memo tables should have `2 ^ 31` entries. -/
@[irreducible] def outsized : World := single 8 (2 ^ 30) 2
@[irreducible] def y0 : Bdd := firstVar outsized

theorem outsized_cells :
    ¬ shl64 (outsized.mgr 0).set.sizeExp * MAX_LOAD_FACTOR ≤ (outsized.mgr 0).set.numEntry ∧
    y0 ≠ (outsized.consts 0).trueId ∧ y0 ≠ (outsized.consts 0).falseId ∧
    ((outsized.mgr 0).notCache.get (splitmix64 (addr y0)) y0).toOption = none := by
  decide +kernel

theorem outsized_stuck : Begins 0 0 ⟨outsized, fun _ => 0⟩ ∧ (outsized.consts 0).Kept y0 ∧
    ¬ Answers 0 0 outsized (.not y0) := by
  have hf : Founded 0 8 (2 ^ 30) 2 blank outsized := by
    unfold outsized
    exact (single_init 8 (2 ^ 30) 2 (by decide) (by decide)).2
  have hrest := hf.resting blank_fresh.resting
  have hm := hf.here
  obtain ⟨hload, hT, hF, hcache⟩ := outsized_cells
  refine ⟨?_, ?_, ?_⟩
  · unfold outsized
    exact single_begins 8 (2 ^ 30) 2 (by decide) (by decide)
  · unfold y0
    exact (firstVar_kept hf (by decide)).2
  · apply not_stuck hf.idle hload hT hF
    intro v hv
    rw [hv] at hcache
    cases hcache

/-! ## What is held survives -/

section
variable {t m n : Nat} {s : Nat → Session} {a : Bdd}

/-- A handle that is held from one state of the run to another is in
the table there, was not freed in between and stands for the same function. -/
theorem History.owned_survives (h : History t m n s) (hf : ∀ i, i ≤ n → (s i).Fair m) {i j : Nat}
    (hij : i ≤ j) (hj : j ≤ n) (ha : ∀ k, i ≤ k → k ≤ j → (s k).Held m a) :
    ((s j).world.store m).Live a ∧ (s j).world.heap.frees a = (s i).world.heap.frees a ∧
      ∃ f, (s i).world.Stands m a f ∧ (s j).world.Stands m a f := by
  have hacc := h.accounted hf
  refine ⟨(hacc j hj).live a (ha j hij (Nat.le_refl j)), ?_⟩
  induction j, hij using Nat.le_induction with
  | base =>
    have hl := (hacc i hj).live a (ha i (Nat.le_refl i) (Nat.le_refl i))
    obtain ⟨f, hd⟩ := ((hacc i hj).resting.inv.table m (hacc i hj).made).nodes.denotes hl
    exact ⟨rfl, f, ⟨hl, hd⟩, ⟨hl, hd⟩⟩
  | succ j hij ih =>
    obtain ⟨hfr, f, hi, hst⟩ := ih (by omega) fun k h1 h2 => ha k h1 (by omega)
    have hmv := h.moved hf hj
    have hfj := hmv.frees a (ha j hij (by omega))
    exact ⟨hfj.trans hfr, f, hi, hmv.onward.stands m a f (hacc j (by omega)).made hst hfj⟩

end

/-- The conjunction is held while the disjunction is collected. -/
theorem owned_survives_errand : ((errandStates 5).world.store 0).Live both ∧
    (errandStates 5).world.heap.frees both = (errandStates 1).world.heap.frees both ∧
    (∃ f, (errandStates 1).world.Stands 0 both f ∧ (errandStates 5).world.Stands 0 both f) ∧
    (errandStates 2).world.heap.Has either ∧ ¬ (errandStates 4).world.heap.Has either := by
  obtain ⟨hh, hf⟩ := errand_history
  have hown : ∀ k, 1 ≤ k → k ≤ 5 → 0 < (errandStates k).own both := by decide +kernel
  obtain ⟨hl, hfr, hst⟩ := hh.owned_survives hf (i := 1) (by omega) (Nat.le_refl 5)
    fun k h1 h2 => Or.inl (hown k h1 h2)
  exact ⟨hl, hfr, hst, by decide +kernel, by decide +kernel⟩

/-- A variable is freed while it is held, after as many references as a count can hold were
taken. -/
theorem hoarded_collected : ∃ n s, History 0 0 n s ∧ (∀ i, i ≤ n → ∀ a, 0 ≤ (s i).own a) ∧
    (∀ i, i ≤ n → (s i).Held 0 x0) ∧ ¬ ((s n).world.store 0).Live x0 := by
  obtain ⟨h, hall⟩ := fresh_robbed.hoard (2 ^ 64 - 1) add_max
  refine ⟨_, _, h, fun i hi => (hall i hi).1, fun i hi => (hall i hi).2, ?_⟩
  rw [extend_last]
  exact fresh_robbed.gone

/-! ## Operations answer -/

/-- In every state of a run, where the arrays are as long as the masks assume and a full table can
grow once more, an operation on handles that are held answers. -/
theorem History.answers {t m n : Nat} {s : Nat → Session} (h : History t m n s) (hf : ∀ i, i ≤ n → (s i).Fair m)
    (hroom : Spacious (s n).world m) {c : Call} (hargs : ∀ a ∈ c.args, (s n).Held m a) :
    Answers t m (s n).world c :=
  (h.accounted hf n (Nat.le_refl n)).call_answers (hf n (Nat.le_refl n)) hroom hargs t

/-- After the collection. -/
theorem answers_errand : Answers 0 0 (errandStates 4).world (.or both x1) := by
  obtain ⟨hh, hf⟩ := errand_history
  have hh : History 0 0 4 errandStates := ⟨hh.begins, fun i hi => hh.moves i (by omega)⟩
  have hf : ∀ i, i ≤ 4 → (errandStates i).Fair 0 := fun i hi => hf i (by omega)
  apply hh.answers hf
  · have hacc := hh.accounted hf 4 (Nat.le_refl 4)
    refine spacious_of_roomy ⟨by decide +kernel, by decide +kernel, fun c => ?_⟩
      hacc.resting.inv hacc.made
    cases c <;> decide +kernel
  · intro a ha
    rcases (by simpa [Call.args] using ha : a = both ∨ a = x1) with rfl | rfl
    · exact Or.inl (by decide +kernel)
    · exact Or.inr (by decide +kernel)

/-- Operations on variables do not answer: after `2 ^ 64 - 1` references were taken, after one
was given back that was not taken, and where a memo table is too long. -/
theorem not_answered :
    (∃ n s, History 0 0 n s ∧ (∀ i, i ≤ n → ∀ a, 0 ≤ (s i).own a) ∧ (s n).world.Roomy 0 ∧
      (s n).Held 0 x0 ∧ ¬ Answers 0 0 (s n).world (.not x0)) ∧
    (∃ n s, History 0 0 n s ∧ (∀ i, i ≤ n → ∀ a, (s i).refs 0 a < 2 ^ 64) ∧
      (s n).world.Roomy 0 ∧ (s n).Held 0 x0 ∧ ¬ Answers 0 0 (s n).world (.not x0)) ∧
    ∃ n s, History 0 0 n s ∧ (∀ i, i ≤ n → (s i).Fair 0) ∧ (s n).Held 0 y0 ∧
      ¬ Answers 0 0 (s n).world (.not y0) := by
  refine ⟨?_, ?_, ?_⟩
  · obtain ⟨h, hall⟩ := fresh_robbed.hoard (2 ^ 64 - 1) add_max
    refine ⟨_, _, h, fun i hi => (hall i hi).1, ?_, (hall _ (Nat.le_refl _)).2, ?_⟩
    · rw [extend_last]
      exact fresh_robbed.roomy
    · rw [extend_last]
      exact fresh_robbed.stuck
  · obtain ⟨s, h, hall, hw, hheld⟩ := fresh_robbed.overdraw
    refine ⟨2, s, h, hall, ?_, hheld, ?_⟩
    · rw [hw]
      exact fresh_robbed.roomy
    · rw [hw]
      exact fresh_robbed.stuck
  · obtain ⟨hb, hk, hno⟩ := outsized_stuck
    refine ⟨0, fun _ => ⟨outsized, fun _ => 0⟩, ⟨hb, fun i hi => by omega⟩, ?_, Or.inr hk, hno⟩
    intro i _
    constructor
    · intro a
      exact Int.le_refl 0
    · intro a
      unfold Session.refs
      split <;> simp

end Manager

end Tobdd
