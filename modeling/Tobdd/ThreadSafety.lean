import Tobdd.Lib.Schedule
import Tobdd.Owners
import Tobdd.ThreadCalls

/-!
# Threads on one manager are safe

`Secure`: what holds of every configuration that threads on one manager reach, as long as no
count of references overflows and the arrays can grow.

    clients_secure: every configuration is secure
    clients_insecure: ... but not where a count overflows, nor where a memo table is too long
-/

namespace Tobdd.ManagerThreads

open Resume Diagram World
open Manager (Op ops step Enough fresh x0 x1 both robbed outsized y0)

/-! ## How an operation ends -/

/-- The steps that neither drop a read guard nor give a reference back. -/
def Inner : Op → Prop
  | .dropRead | .acc (.fetchSub _) => False
  | _ => True

section
variable {g : Consts} {m n t : Nat}

theorem inner_step {o : Op} (ho : Inner o) : (step o).Only Inner := ⟨ho, fun _ => trivial⟩

theorem inner_cleans {α : Type} {q : Prog ops α} (hq : q.Only Op.Cleans) : q.Only Inner := by
  refine hq.mono fun o ho => ?_
  cases o with
  | dropRead => exact ho.elim
  | acc o => exact ho.elim
  | _ => trivial

theorem inner_recur (g : Consts) (n : Nat) (c : Manager.Call) : (c.recur g n).Only Inner := by
  refine (Manager.recurs_recur g n c).mono fun o ho => ?_
  cases o with
  | dropRead => exact ho.elim
  | acc o =>
    cases o with
    | fetchSub a => exact ho.elim
    | _ => trivial
  | _ => trivial

theorem inner_enterOp (n : Nat) : (Manager.enterOp n).Only Inner := by
  refine .bind (inner_step trivial) fun e => .bind ⟨trivial, fun _ => trivial⟩ fun b => ?_
  refine .bind (.ite _ (inner_step trivial) trivial) fun ok => .ite _ ?_ (inner_step trivial)
  exact .bind (inner_step trivial) fun _ => .bind (inner_cleans (only_cleanUp ..)) fun _ =>
    .bind (inner_step trivial) fun _ => inner_step trivial

/-- An operation that has dropped its read guard returns at once. -/
theorem last_operation (g : Consts) (n : Nat) (c : Manager.Call) :
    (code g n (.op c)).Last fun o => o = Op.dropRead := by
  have hne : ∀ o : Op, Inner o → ¬ o = Op.dropRead := by
    rintro o ho rfl
    exact ho
  refine Prog.Last.map ?_ Ret.bdd
  rw [Manager.Call.prog_eq, Manager.operation_eq]
  refine ((inner_enterOp n).mono hne).last fun _ => ((inner_recur g n c).mono hne).last fun b => ?_
  refine ((inner_step (o := .acc (.fetchAdd b)) trivial).mono hne).last fun _ => ?_
  exact fun _ => ⟨fun _ => ⟨b, rfl⟩, trivial⟩

/-- An operation gives no reference back. -/
theorem only_operation (g : Consts) (n : Nat) (c : Manager.Call) :
    (code g n (.op c)).Only fun o => ∀ a, o ≠ Op.acc (.fetchSub a) := by
  have hne : ∀ o : Op, Inner o → ∀ a, o ≠ Op.acc (.fetchSub a) := by
    rintro o ho a rfl
    exact ho
  refine .bind ?_ fun _ => trivial
  rw [Manager.Call.prog_eq, Manager.operation_eq]
  refine .bind ((inner_enterOp n).mono hne) fun _ => .bind ((inner_recur g n c).mono hne) fun b => ?_
  refine .bind ((inner_step (o := .acc (.fetchAdd b)) trivial).mono hne) fun _ => ?_
  exact ⟨fun _ h => (nomatch h : False), fun _ => trivial⟩

end

/-! ## Every configuration -/

/-- What holds of a configuration of the threads on manager `m`. -/
structure Secure (g : Consts) (m n : Nat) (s : Conf ops Shared Nat Call Ret) : Prop where
  /-- who marks, sweeps, unmarks or grows has the write guard, and nobody has a read guard -/
  cleans : ∀ t c o k, s.pc t = some (c, .step o k) → o.Cleans →
    (s.world.lock m).writer = some (t, true) ∧ (s.world.lock m).readers = []
  /-- an operation comes to its nodes under a read guard ... -/
  visits : ∀ t c o k, s.pc t = some (c, .step o k) → Visits o → t ∈ (s.world.lock m).readers
  /-- ... under which no node of the table is freed ... -/
  guarded : ∀ t ∈ (s.world.lock m).readers, ∀ s', (clients g m n).Step s s' → s'.world.Fits g m n →
    ∀ a, (s.world.world.store m).Live a → (s'.world.world.store m).Live a ∧
      s'.world.world.heap.frees a = s.world.world.heap.frees a ∧
      ∀ f, s.world.Means g a f → s'.world.Means g a f
  /-- ... and which it drops when it has referenced its result and returns -/
  leaves : ∀ t c k, s.pc t = some (.op c, .step Op.dropRead k) →
    ∃ b, k () = .ret (.bdd b) ∧ (t, b) ∈ s.world.refs
  /-- the operands stay held -/
  args : ∀ t c p, s.pc t = some (.op c, p) → ∀ a ∈ c.args, s.world.Holds g t a
  /-- what a thread holds is in memory, is not freed, and goes on to stand for its function -/
  held : ∀ t a, s.world.Holds g t a → s.world.world.heap.Has a ∧ ∀ s', (clients g m n).Step s s' →
    s'.world.Fits g m n → s'.world.world.heap.frees a = s.world.world.heap.frees a ∧
      ∀ f, s.world.Means g a f → s'.world.Means g a f
  /-- an operation returns the function of its operands, referenced -/
  answers : ∀ t c r, s.pc t = some (.op c, .ret r) → ∃ b, r = .bdd b ∧ (t, b) ∈ s.world.refs ∧
    ∃ F, c.Spec (fun a f => s.world.Means g a f) F ∧ s.world.Means g b F
  /-- a step that cannot be taken waits for another thread -/
  waits : ∀ t c o k, s.pc t = some (c, .step o k) → ∀ e, exec m t o s.world = .error e →
    e = .spin ∧ Waits m t o s.world
  /-- some thread in a call can take its step -/
  goes : (∃ t, s.pc t ≠ none) → ∃ t s', s.pc t ≠ none ∧ (clients g m n).Step s s' ∧
    ∀ u ≠ t, s'.pc u = s.pc u

/-- Manager `m` has just been made, as the first of its process. -/
def Starts (m : Nat) (x : Shared) : Prop :=
  ∃ (w : World) (t : Nat) (tableSize cacheSize : UInt64) (varNum n : Nat), w.Fresh ∧
    Manager.init m t tableSize cacheSize varNum n w = .ok x.world ∧ x.refs = []

section
variable {g : Consts} {m n t : Nat} {x x₀ : Shared} {s s' : Conf ops Shared Nat Call Ret}

theorem Starts.inv (h : Starts m x) (hf : x.Fits (x.world.consts m) m n) :
    Inv (x.world.consts m) m n x ∧ ∀ t, Place (x.world.consts m) m n t 0 none x := by
  obtain ⟨w, t, tableSize, cacheSize, varNum, k, hw, hinit, hrefs⟩ := h
  have hi := hw.resting.inv
  rcases Manager.run_init hi (hw.made m) t tableSize cacheSize varNum k with ⟨w', hrun, hfd⟩ | ⟨e, hrun, -⟩
  swap
  · cases hrun.symm.trans hinit
  obtain rfl := Except.ok.inj (hrun.symm.trans hinit)
  have hidle : x.lock m = ⟨[], none⟩ := hfd.idle
  have hcount : ∀ a, x.count (x.world.consts m) a = if (x.world.consts m).Kept a then 1 else 0 := by
    intro a
    unfold Shared.count
    rw [hrefs, List.countP_nil, Nat.zero_add]
  have hinv : Inv (x.world.consts m) m n x := by
    constructor
    · intro k
      rw [hfd.made]
      by_cases hk : k = m
      · simp [hk]
      · simp [hw.made k, hk]
    · rfl
    · exact hf
    · intro a
      rw [hcount]
      by_cases ha : (x.world.consts m).Kept a
      · rw [if_pos ha, hfd.refs a ((hfd.kept a).mpr ha)]
        rfl
      · rw [if_neg ha, hfd.refsOther a fun hl => ha ((hfd.kept a).mp hl),
          Heap.get_of_not_has fun ⟨_, hn⟩ => by cases (hw.cell a).symm.trans hn]
        rfl
    · intro a ha
      rw [hcount] at ha
      have hk : (x.world.consts m).Kept a := by
        by_contra hk
        exact ha (if_neg hk)
      have hm : x.world.made m = true := hfd.here
      exact (hfd.inv.table m hm).nodes.has a ((hfd.kept a).mpr hk)
    · intro t ht
      rw [hidle]
    · exact fun _ => hfd.inv
  refine ⟨hinv, fun t => ⟨hinv, ?_, fun b => ?_⟩⟩
  · rw [hidle]
    rfl
  · rw [hidle]
    simp

/-- A reference is lost to its thread only where it gives it back. -/
theorem mem_account {o : Op} {u : Nat} {a : Bdd} {l : List (Nat × Bdd)} (ha : (u, a) ∈ l)
    (ho : u ≠ t ∨ ∀ b, o ≠ .acc (.fetchSub b)) : (u, a) ∈ account t o l := by
  unfold account
  split
  · exact List.mem_cons_of_mem _ ha
  · next b =>
    have hu : u ≠ t := ho.resolve_right fun h => h b rfl
    exact (List.mem_erase_of_ne (by simp [hu])).mpr ha
  · exact ha

/-- What the program of an operation is like, at each point. -/
theorem Reach.program (h : (clients g m n).Reach (Shared.Fits g m n) x₀ s) {c : Manager.Call}
    {p : Prog ops Ret} (hpc : s.pc t = some (.op c, p)) :
    (p.Only fun o => ∀ a, o ≠ Op.acc (.fetchSub a)) ∧ p.Last fun o => o = Op.dropRead := by
  refine System.Reach.code h (G := fun c p => ∀ c', c = .op c' →
    (p.Only fun o => ∀ a, o ≠ Op.acc (.fetchSub a)) ∧ p.Last fun o => o = Op.dropRead) ?_ ?_ hpc c rfl
  · rintro t _ k c rfl
    exact ⟨only_operation g n c, last_operation g n c⟩
  · intro c o k r h c' hc
    exact ⟨(h c' hc).1.2 r, ((h c' hc).2 r).2⟩

/-- The operands of an operation stay held. -/
theorem Reach.args (h : (clients g m n).Reach (Shared.Fits g m n) x₀ s) : ∀ t c p,
    s.pc t = some (.op c, p) → ∀ a ∈ c.args, s.world.Holds g t a := by
  induction h with
  | init =>
    intro t c p hpc
    cases hpc
  | @step s s' hreach hstep _ ih =>
    intro t c p hpc a ha
    cases hstep with
    | call u c' fuel hu hl =>
      by_cases htu : t = u
      · subst htu
        simp only [Function.update_self, Option.some.injEq, Prod.mk.injEq] at hpc
        obtain ⟨rfl, -⟩ := hpc
        exact hl a ha
      · refine (ih t c p ((Function.update_of_ne htu ..).symm.trans hpc) a ha).imp_left fun hm => ?_
        cases c' with
        | hand b v =>
          apply List.mem_cons_of_mem
          exact (List.mem_erase_of_ne (by simp [htu])).mpr hm
        | op _ | gc | derefBdd _ => exact hm
    | exec u c' o k r w' hu hex =>
      have hrefs : w'.refs = account u o s.world.refs := by
        have hex : exec m u o s.world = .ok (r, w') := hex
        unfold exec at hex
        split at hex
        · obtain ⟨-, rfl⟩ := Prod.mk.inj (Except.ok.inj hex)
          rfl
        · cases hex
      have hmem : s.world.Holds g t a → (t ≠ u ∨ ∀ b, o ≠ Op.acc (.fetchSub b)) → w'.Holds g t a := by
        intro hh ho
        refine hh.imp_left fun hm => ?_
        rw [hrefs]
        exact mem_account hm ho
      by_cases htu : t = u
      · subst htu
        simp only [Function.update_self, Option.some.injEq, Prod.mk.injEq] at hpc
        obtain ⟨rfl, -⟩ := hpc
        exact hmem (ih t c _ hu a ha) (Or.inr (Reach.program hreach hu).1.1)
      · exact hmem (ih t c p ((Function.update_of_ne htu ..).symm.trans hpc) a ha) (Or.inl htu)
    | ret u c' b hu =>
      by_cases htu : t = u
      · subst htu
        cases (Function.update_self ..).symm.trans hpc
      · exact ih t c p ((Function.update_of_ne htu ..).symm.trans hpc) a ha

theorem Fits.withLock {l : RwLock} (h : x.Fits g m n) :
    (Shared.mk (x.world.withLock m l) x.refs).Fits g m n := by
  have hmgr := withLock_mgr x.world m l
  refine ⟨h.counts, ⟨?_, ?_, fun c => ?_⟩, h.enough.withLock⟩
  · rw [hmgr]
    exact h.roomy.set
  · rw [hmgr]
    exact h.roomy.not
  · rw [hmgr]
    exact h.roomy.cache c

/-- A configuration with its proof. -/
structure Proved (g : Consts) (m n : Nat) (s : Conf ops Shared Nat Call Ret) : Prop where
  inv : Inv g m n s.world
  pc : ∀ t, (proof g m n).At t (s.pc t) s.world

theorem Proved.safe (h : Proved g m n s) {c : Call} {o : Op} {k : ops.Res o → Prog ops Ret}
    (hpc : s.pc t = some (c, .step o k)) : Safe m t o s.world := by
  have ht := h.pc t
  rw [hpc] at ht
  exact (ht.does h.inv).1

theorem Proved.guar (h : Proved g m n s) (hstep : (clients g m n).Step s s')
    (hf : s'.world.Fits g m n) : ∃ t, Guar g m n t s.world s'.world := by
  obtain ⟨t, -, hg, -⟩ := (proof g m n).step_guar h.inv h.pc hstep hf
  exact ⟨t, hg h.inv⟩

theorem Proved.post (h : Proved g m n s) {c : Call} {r : Ret} (hpc : s.pc t = some (c, .ret r)) :
    Post g m n t c r s.world := by
  have ht := h.pc t
  rw [hpc] at ht
  exact ht

/-- A thread outside every call is outside the lock. -/
theorem Proved.idle (h : Proved g m n s) (hpc : s.pc t = none) :
    Place g m n t 0 none s.world := by
  have ht := h.pc t
  rw [hpc] at ht
  exact ht

theorem Proved.guarded (h : Proved g m n s) (ht : t ∈ (s.world.lock m).readers)
    (hstep : (clients g m n).Step s s') (hf : s'.world.Fits g m n) {a : Bdd}
    (ha : (s.world.world.store m).Live a) : (s'.world.world.store m).Live a ∧
      s'.world.world.heap.frees a = s.world.world.heap.frees a ∧
      ∀ f, s.world.Means g a f → s'.world.Means g a f := by
  obtain ⟨u, hg⟩ := h.guar hstep hf
  have hr : (s.world.lock m).readers ≠ [] := fun h0 => by
    rw [h0] at ht
    cases ht
  have hq := h.inv.quiet_of_reader hr
  obtain ⟨hreads, hfrees⟩ := hg.reads hq (Or.inr hr)
  refine ⟨hreads.live a ha, congrFun hfrees a, fun f hm => ?_⟩
  exact (Consts.Stands.keep (h.inv.now hq).table.nodes hreads.keeps ⟨ha, hm⟩).2

/-- A read guard is dropped at the end, when the result is referenced. -/
theorem Proved.leaves (h : Proved g m n s) {c : Manager.Call}
    {k : ops.Res .dropRead → Prog ops Ret} (hpc : s.pc t = some (.op c, .step Op.dropRead k))
    (hlast : (Prog.step (S := ops) Op.dropRead k).Last fun o => o = Op.dropRead) :
    ∃ b, k () = .ret (.bdd b) ∧ (t, b) ∈ s.world.refs := by
  obtain ⟨r, hr⟩ := (hlast ()).1 rfl
  have ht := h.pc t
  rw [hpc] at ht
  have hd := (ht.does h.inv).2
  -- the lock is all that the step changes
  have hf : (Shared.mk (s.world.world.withLock m ⟨(s.world.lock m).readers.erase t,
      (s.world.lock m).writer⟩) s.world.refs).Fits g m n := Fits.withLock h.inv.fits
  have hpost : wp ((proof g m n).logic t) (k ()) ((proof g m n).post t (.op c)) _ := (hd hf).2
  rw [hr] at hpost
  cases r with
  | bdd b =>
    have hdone : Done g m n t c b ⟨_, account t Op.dropRead s.world.refs⟩ := hpost
    exact ⟨b, hr, hdone.owned⟩
  | marked _ | done => exact hpost.elim

theorem Proved.returns (h : Proved g m n s) {c : Manager.Call} {r : Ret}
    (hpc : s.pc t = some (.op c, .ret r)) : ∃ b, r = .bdd b ∧ (t, b) ∈ s.world.refs ∧
      ∃ F, c.Spec (fun a f => s.world.Means g a f) F ∧ s.world.Means g b F := by
  have hpost := h.post hpc
  cases r with
  | bdd b => exact ⟨b, rfl, Done.owned hpost, Done.right hpost⟩
  | marked _ | done => exact hpost.elim

/-- A thread in a call takes its step or waits. -/
theorem Proved.steps (h : Proved g m n s) (hpc : s.pc t ≠ none) :
    (∃ s', (clients g m n).Step s s' ∧ ∀ u ≠ t, s'.pc u = s.pc u) ∨ ∃ o, Waits m t o s.world := by
  cases he : s.pc t with
  | none => exact absurd he hpc
  | some cp =>
    obtain ⟨c, p⟩ := cp
    cases p with
    | ret r => exact Or.inl ⟨_, .ret t c r he, fun u hu => Function.update_of_ne hu ..⟩
    | step o k =>
      cases hex : exec m t o s.world with
      | error e => exact Or.inr ⟨o, ((h.safe he).stuck e hex).2⟩
      | ok x =>
        exact Or.inl ⟨_, .exec t c o k x.1 x.2 he hex, fun u hu => Function.update_of_ne hu ..⟩

/-- **Nobody waits for ever for somebody who waits**: a thread that waits waits for one with a
guard, and there is one with a guard that does not wait. -/
theorem Proved.goes (h : Proved g m n s) (hpc : s.pc t ≠ none) :
    ∃ t s', s.pc t ≠ none ∧ (clients g m n).Step s s' ∧ ∀ u ≠ t, s'.pc u = s.pc u := by
  have hin : ∀ {u : Nat}, u ∈ (s.world.lock m).readers ∨ (∃ b, (s.world.lock m).writer = some (u, b)) →
      s.pc u ≠ none := by
    intro u hu hno
    have hp := h.idle hno
    rcases hu with hu | ⟨b, hb⟩
    · exact hp.not_mem_readers hu
    · cases (hp.writer b).mp hb
  -- a thread with a read guard does not wait
  have hreader : ∀ {u : Nat}, u ∈ (s.world.lock m).readers →
      ∃ t s', s.pc t ≠ none ∧ (clients g m n).Step s s' ∧ ∀ u ≠ t, s'.pc u = s.pc u := by
    intro u hu
    rcases h.steps (hin (Or.inl hu)) with ⟨s', hs⟩ | ⟨o, hno, -⟩
    · exact ⟨u, s', hin (Or.inl hu), hs⟩
    · exact absurd hu hno
  have hawait : (s.world.lock m).readers ≠ [] →
      ∃ t s', s.pc t ≠ none ∧ (clients g m n).Step s s' ∧ ∀ u ≠ t, s'.pc u = s.pc u := by
    intro hne
    obtain ⟨v, hv⟩ := List.exists_mem_of_ne_nil _ hne
    exact hreader hv
  rcases h.steps hpc with ⟨s', hs⟩ | ⟨o, -, ⟨-, u, -, b, hw⟩ | ⟨-, -, hne⟩⟩
  · exact ⟨t, s', hpc, hs⟩
  · -- the one with the write lock
    have hu := hin (Or.inr ⟨b, hw⟩)
    rcases h.steps hu with ⟨s', hs⟩ | ⟨o, -, ⟨-, v, hv, b', hw'⟩ | ⟨-, -, hne⟩⟩
    · exact ⟨u, s', hu, hs⟩
    · rw [hw] at hw'
      exact absurd (Prod.mk.inj (Option.some.inj hw')).1.symm hv
    · exact hawait hne
  · exact hawait hne

end

/-- Threads share a manager that was just made.  As long as
the counts of references fit into 64 bits and the arrays can grow, every configuration is
secure. -/
theorem clients_secure {m n : Nat} {x₀ : Shared} {s : Conf ops Shared Nat Call Ret} (h₀ : Starts m x₀)
    (hf : x₀.Fits (x₀.world.consts m) m n)
    (hs : (clients (x₀.world.consts m) m n).Reach (Shared.Fits (x₀.world.consts m) m n) x₀ s) :
    Secure (x₀.world.consts m) m n s := by
  obtain ⟨hinv, hidle⟩ := h₀.inv hf
  obtain ⟨hi, hat⟩ := (proof _ m n).sound hinv hidle hs
  have hp : Proved (x₀.world.consts m) m n s := ⟨hi, hat⟩
  constructor
  · intro t c o k hpc ho
    have hw := (hp.safe hpc).cleans ho
    exact ⟨hw, hi.alone t hw⟩
  · exact fun t c o k hpc => (hp.safe hpc).visits
  · exact fun t ht s' hstep hfit a ha => hp.guarded ht hstep hfit ha
  · exact fun t c k hpc => hp.leaves hpc (Reach.program hs hpc).2
  · exact Reach.args hs
  · intro t a ha
    have h0 := holds_count ha
    refine ⟨hi.has a h0, fun s' hstep hfit => ?_⟩
    obtain ⟨u, hg⟩ := hp.guar hstep hfit
    exact hg.keeps a h0
  · exact fun t c r hpc => hp.returns hpc
  · exact fun t c o k hpc => (hp.safe hpc).stuck
  · rintro ⟨t, hpc⟩
    exact hp.goes hpc

theorem single_starts (tableSize cacheSize : UInt64) (varNum : Nat)
    (ht : capacityExp tableSize % 64 < 31) (hv : varNum * 8 < 2 ^ 63) :
    Starts 0 ⟨Manager.single tableSize cacheSize varNum, []⟩ := by
  obtain ⟨hinit, -⟩ := Manager.single_init tableSize cacheSize varNum ht hv
  exact ⟨Manager.blank, 0, tableSize, cacheSize, varNum, _, Manager.blank_fresh, hinit, rfl⟩

theorem fresh_starts : Starts 0 ⟨fresh, []⟩ := by
  unfold fresh
  exact single_starts 8 8 2 (by decide) (by decide)

theorem fresh_fits : Shared.Fits (fresh.consts 0) 0 60 ⟨fresh, []⟩ := by
  refine ⟨fun a => ?_, Manager.fresh_roomy, ?_⟩
  · unfold Shared.count
    rw [List.countP_nil]
    split <;> simp
  · obtain ⟨hbrk, hvars, -⟩ := Manager.fresh_small
    exact ⟨hbrk, hvars⟩

/-- Little is allocated and little is held. -/
structure Small (m n : Nat) (x : Shared) : Prop where
  refs : x.refs.length < 60
  set : (x.world.mgr m).set.sizeExp % 64 < 30
  not : (x.world.mgr m).notCache.sizeExp % 64 < 30
  cache : ∀ c ∈ [Memo.and, .or, .comp, .quantExist, .quantForall],
    ((x.world.mgr m).cache c).sizeExp % 64 < 30
  chain : 2 * x.world.heap.brk < n
  level : (x.world.consts m).numVars + 1 < n

instance (m n : Nat) (x : Shared) : Decidable (Small m n x) :=
  decidable_of_iff (x.refs.length < 60 ∧ (x.world.mgr m).set.sizeExp % 64 < 30 ∧
    (x.world.mgr m).notCache.sizeExp % 64 < 30 ∧
    (∀ c ∈ [Memo.and, .or, .comp, .quantExist, .quantForall],
      ((x.world.mgr m).cache c).sizeExp % 64 < 30) ∧
    2 * x.world.heap.brk < n ∧ (x.world.consts m).numVars + 1 < n)
    ⟨fun ⟨h1, h2, h3, h4, h5, h6⟩ => ⟨h1, h2, h3, h4, h5, h6⟩,
      fun ⟨h1, h2, h3, h4, h5, h6⟩ => ⟨h1, h2, h3, h4, h5, h6⟩⟩

theorem Small.fits {g : Consts} {m n : Nat} {x : Shared} (h : Small m n x) : x.Fits g m n := by
  refine ⟨fun a => ?_, ⟨h.set, h.not, fun c => h.cache c ?_⟩, h.chain, h.level⟩
  · have hle : x.refs.countP (fun p => p.2 = a) ≤ x.refs.length := List.countP_le_length
    have hlt := h.refs
    unfold Shared.count
    split <;> omega
  · cases c <;> simp

instance (g : Consts) (t : Nat) (x : Shared) : (c : Call) → Decidable (c.Legal g t x)
  | .op c => inferInstanceAs (Decidable (∀ a ∈ c.args, (t, a) ∈ x.refs ∨ g.Kept a))
  | .gc => inferInstanceAs (Decidable True)
  | .derefBdd bdd | .hand bdd _ => inferInstanceAs (Decidable ((t, bdd) ∈ x.refs))

/-- Threads go on in the order of a schedule ... -/
def playOn (l : List (Nat × Turn Call)) (h : List (Event Nat Call Ret))
    (s : Conf ops Shared Nat Call Ret) :
    Option (List (Event Nat Call Ret) × Conf ops Shared Nat Call Ret) :=
  (clients (fresh.consts 0) 0 60).follow (fun t c x => decide (c.Legal (fresh.consts 0) t x))
    (fun x => decide (Small 0 60 x)) l h s

/-- ... on the manager that was just made. -/
def play (l : List (Nat × Turn Call)) :
    Option (List (Event Nat Call Ret) × Conf ops Shared Nat Call Ret) :=
  playOn l [] ⟨⟨fresh, []⟩, fun _ => none⟩

theorem play_runs {l : List (Nat × Turn Call)} {h : List (Event Nat Call Ret)}
    {s : Conf ops Shared Nat Call Ret} (hrun : play l = some (h, s)) :
    (clients (fresh.consts 0) 0 60).Runs (Shared.Fits (fresh.consts 0) 0 60) ⟨fresh, []⟩ h s :=
  System.Runs.follow .init (fun t c x hl => (of_decide_eq_true hl : c.Legal (fresh.consts 0) t x))
    (fun x hx => (of_decide_eq_true hx : Small 0 60 x).fits) l hrun

/-- Threads 0 and 1 come to the conjunction of the variables, thread 3 drops the disjunction.  The
collector of thread 2 waits for thread 1, which is about to return while the disjunction is freed;
thread 4 comes too late. -/
def crowd : List (Nat × Turn Call) :=
  (0, .call (.op (.and x0 x1)) 0) :: List.replicate 14 (0, .go) ++
  (3, .call (.op (.or x0 x1)) 0) :: List.replicate 14 (3, .go) ++
  (3, .call (.derefBdd 9) 0) :: List.replicate 2 (3, .go) ++
  (1, .call (.op (.and x1 x0)) 0) :: List.replicate 4 (1, .go) ++
  (2, .call .gc 0) :: List.replicate 1 (2, .go) ++ List.replicate 2 (1, .go) ++
  List.replicate 110 (2, .go) ++
  (4, .call (.op (.or x0 x1)) 0) :: List.replicate 2 (4, .go)

theorem crowd_run : ∃ x ∈ play crowd, x.2.returning 1 = some (.op (.and x1 x0), .bdd both) ∧
    (x.2.next 2).any (fun o : Op => o.Cleans) ∧ (x.2.next 4).isSome ∧
    (0, both) ∈ x.2.world.refs ∧ ¬ x.2.world.world.heap.Has 9 := by
  decide +kernel

/-- Everything is secure when the collector has freed a node. -/
theorem clients_secure_crowd : ∃ s, s.returning 1 = some (.op (.and x1 x0), .bdd both) ∧
    (s.next 2).any (fun o : Op => o.Cleans) ∧ s.next 4 ≠ none ∧ (0, both) ∈ s.world.refs ∧
    ¬ s.world.world.heap.Has 9 ∧ Secure (fresh.consts 0) 0 60 s := by
  obtain ⟨⟨h, s⟩, hrun, hret, hclean, hnext, hrefs, hfree⟩ := crowd_run
  refine ⟨s, hret, hclean, Option.isSome_iff_ne_none.mp hnext, hrefs, hfree, ?_⟩
  exact clients_secure fresh_starts fresh_fits (play_runs hrun).reach

section
variable {α β γ : Type} {g : Consts} {m n t : Nat} {w w' : World} {l : List (Nat × Bdd)} {a : Bdd}
  {x₀ : Shared}

/-- A program that one thread runs alone, with the references that it takes. -/
theorem run_alone {r : α} : ∀ (p : Prog ops α) (w : World) (l : List (Nat × Bdd)),
    run (Manager.exec m t) p w = .ok (r, w') →
    ∃ l', run (exec m t) p ⟨w, l⟩ = .ok (r, ⟨w', l'⟩) := by
  intro p
  induction p with
  | ret b =>
    intro w l h
    obtain ⟨rfl, rfl⟩ := Prod.mk.inj (Except.ok.inj h)
    exact ⟨l, rfl⟩
  | step o k ih =>
    intro w l h
    cases he : Manager.exec m t o w with
    | error e =>
      rw [run_step_error he] at h
      cases h
    | ok x =>
      have hex : Manager.exec m t o w = .ok (x.1, x.2) := he
      rw [run_step_ok hex] at h
      rw [run_step_ok (exec_ok (x := ⟨w, l⟩) he)]
      exact ih x.1 x.2 _ h

/-- `and` of a handle and itself takes a reference to it, and does nothing else. -/
theorem run_and_self (hl : w.Idle m) (h : ¬ Manager.Loaded w m) (ha : w.heap.Has a) :
    run (Manager.exec m t) ((Manager.Call.and a a).prog g (n + 1)) w =
      .ok (a, w.recount a (· + 1)) := by
  have hrec : Manager.Call.recur g (n + 1) (.and a a) = .ret a := by
    have hp : ∀ i, Manager.pick a a i = a := fun i => ite_self a
    show Manager.andRec g (n + 1) a a = _
    unfold Manager.andRec
    rw [hp, hp, if_pos (Or.inl rfl)]
    rfl
  rw [Manager.Call.prog_eq, Manager.operation_eq, hrec]
  refine (run_bind ..).trans ?_
  rw [Manager.run_enterOp_roomy hl h]
  have hlock : (((w.withLock m ⟨[t], none⟩).recount a (· + 1)).mgr m).rwLock = ⟨[t], none⟩ := by
    rw [recount_mgr, withLock_mgr]
  refine (run_step_ok (Manager.exec_fetchAdd (w := w.withLock m _) ha)).trans
    ((run_step_ok (Manager.exec_dropRead hlock)).trans ?_)
  have hback : ((w.withLock m ⟨[t], none⟩).recount a (· + 1)).withLock m ⟨[], none⟩ =
      w.recount a (· + 1) := by
    show ((w.withLock m ⟨[t], none⟩).withLock m ⟨[], none⟩).recount a (· + 1) = _
    rw [withLock_withLock, ← hl, withLock_self]
  rw [hback]
  rfl

/-- References are taken one after the other. -/
theorem Reach.hoard (hl : w.Idle m) (h : ¬ Manager.Loaded w m) (ha : w.heap.Has a) (hk : g.Kept a)
    (i : Nat) : ∃ l, (clients g m (n + 1)).Reach (fun _ => True) ⟨w, []⟩
      ⟨⟨w.recount a (· + UInt64.ofNat i), l⟩, fun _ => none⟩ := by
  induction i with
  | zero =>
    refine ⟨[], ?_⟩
    have h0 : w.recount a (· + UInt64.ofNat 0) = w := recount_self w a fun c => UInt64.add_zero c
    rw [h0]
    exact .init
  | succ i ih =>
    obtain ⟨l, hreach⟩ := ih
    have hi : (w.recount a (· + UInt64.ofNat i)).Idle m := hl
    have hrun := run_and_self (g := g) (n := n) (t := 0) hi h ((recount_has w a _ a).mpr ha)
    obtain ⟨l', hrun⟩ := run_alone _ _ l hrun
    have hwhole : run (exec m 0) (code g (n + 1) (.op (.and a a))) ⟨w.recount a (· + UInt64.ofNat i), l⟩ =
        .ok (.bdd a, ⟨(w.recount a (· + UInt64.ofNat i)).recount a (· + 1), l'⟩) := by
      refine (run_bind ..).trans ?_
      rw [hrun]
      rfl
    have hargs : Call.Legal g 0 ⟨w.recount a (· + UInt64.ofNat i), l⟩ (.op (.and a a)) := by
      intro b hb
      obtain rfl : b = a := by simpa [Manager.Call.args] using hb
      exact Or.inr hk
    have hnext := hreach.whole (fun _ => trivial) 0 (.op (.and a a)) 0 _ _ rfl hargs hwhole
    refine ⟨l', ?_⟩
    have hadd : (w.recount a (· + UInt64.ofNat i)).recount a (· + 1) =
        w.recount a (· + UInt64.ofNat (i + 1)) := by
      rw [recount_recount]
      congr 1
      funext c
      show c + UInt64.ofNat i + 1 = c + UInt64.ofNat (i + 1)
      rw [UInt64.ofNat_add, UInt64.add_assoc]
      rfl
    rwa [hadd] at hnext

/-- An operation begins with `enter_op`. -/
theorem code_op (g : Consts) (n : Nat) (c : Manager.Call) : code g n (.op c) = Manager.enterOp n >>=
    fun _ => Prog.bind (Manager.answer (c.recur g n)) fun r => Prog.ret (Ret.bdd r) := by
  show Prog.bind (c.prog g n) _ = _
  rw [Manager.Call.prog_eq, Manager.operation_eq]
  exact Prog.bind_assoc ..

/-- A thread alone comes through `enter_op`, where the table has room. -/
theorem Reach.enters {c : Manager.Call} (h : (clients g m n).Reach (fun _ => True) x₀ ⟨⟨w, l⟩, fun _ => none⟩)
    (hl : w.Idle m) (hr : ¬ Manager.Loaded w m) (hc : ∀ a ∈ c.args, g.Kept a) (t : Nat) :
    ∃ l', (clients g m n).Reach (fun _ => True) x₀ ⟨⟨w.withLock m ⟨[t], none⟩, l'⟩,
      Function.update (fun _ => none) t (some (.op c,
        Prog.bind (Manager.answer (c.recur g n)) fun r => Prog.ret (Ret.bdd r)))⟩ := by
  obtain ⟨l', hrun⟩ := run_alone (Manager.enterOp n) w l (Manager.run_enterOp_roomy hl hr)
  have hcall := h.call t (.op c) 0 rfl (fun a ha => Or.inr (hc a ha)) trivial
  have hpart := hcall.part (fun _ => trivial) t (.op c) (fun _ =>
    Prog.bind (Manager.answer (c.recur g n)) fun r => Prog.ret (Ret.bdd r)) () (Manager.enterOp n) _
    ?_ hrun
  · rw [Function.update_idem] at hpart
    exact ⟨l', hpart⟩
  · exact (Function.update_self ..).trans (congrArg (fun p => some (Call.op c, p)) (code_op g n c))

theorem exec_error {o : Op} {x : Shared} {e : Stop} (h : Manager.exec m t o x.world = .error e) :
    exec m t o x = .error e := by
  unfold exec
  rw [h]

/-- What follows `enter_op` in a complement. -/
theorem answer_notRec (hT : a ≠ g.trueId) (hF : a ≠ g.falseId) :
    ∃ k, Prog.bind (Manager.answer (Manager.notRec g (n + 1) a)) (fun r => Prog.ret (Ret.bdd r)) =
      .step (S := ops) (.notGet (splitmix64 (addr a)) a) k ∧
      ∃ k', k (0 : Bdd) = .step (S := ops) (.acc (.low a)) k' := by
  unfold Manager.notRec
  rw [if_neg hT, if_neg hF]
  refine ⟨_, rfl, ?_⟩
  have hif : ∀ q : Prog ops Bdd, (if (0 : Bdd) ≠ 0 then Prog.ret 0 else q) = q :=
    fun _ => if_neg (not_not.mpr rfl)
  exact ⟨_, congrArg (fun p => Prog.bind (Prog.bind p _) _) (hif _)⟩

/-- ... and a complement then reads its memo table and its operand, which may go wrong. -/
theorem Reach.stops {e : Stop} (h : (clients g m (n + 1)).Reach (fun _ => True) x₀ ⟨⟨w, l⟩, fun _ => none⟩)
    (hl : w.Idle m) (hr : ¬ Manager.Loaded w m) (ha : g.Kept a) (hT : a ≠ g.trueId)
    (hF : a ≠ g.falseId) (he : (w.mgr m).notCache.get (splitmix64 (addr a)) a = .error e ∨
      (w.mgr m).notCache.get (splitmix64 (addr a)) a = .ok 0 ∧ ¬ w.heap.Has a ∧ e = .fault) (t : Nat) :
    ∃ s o k, (clients g m (n + 1)).Reach (fun _ => True) x₀ s ∧ s.world.world.heap = w.heap ∧
      s.pc t = some (.op (.not a), .step o k) ∧ exec m t o s.world = .error e := by
  obtain ⟨l', hin⟩ := Reach.enters h hl hr (c := .not a) (fun b hb => by
    rwa [List.mem_singleton.mp hb]) t
  have hin' := answer_notRec (n := n) hT hF
  generalize splitmix64 (addr a) = hash at he hin'
  obtain ⟨k, hprog, k', hk⟩ := hin'
  rw [show Manager.Call.recur g (n + 1) (.not a) = Manager.notRec g (n + 1) a from rfl, hprog] at hin
  have hself : ∀ p : Option (Call × Prog ops Ret), Function.update (fun _ => none) t p t = p :=
    fun p => Function.update_self ..
  rw [show (w.mgr m).notCache = ((w.withLock m ⟨[t], none⟩).mgr m).notCache by rw [withLock_mgr]] at he
  rcases he with he | ⟨he, hno, rfl⟩
  · exact ⟨_, _, k, hin, rfl, hself _, exec_error (Manager.exec_notGet_error he)⟩
  · have hnext := hin.exec t _ _ k _ _ (hself _)
      (exec_ok (x := ⟨w.withLock m ⟨[t], none⟩, l'⟩) (Manager.exec_notGet_ok he)) trivial
    rw [Function.update_idem, hk] at hnext
    exact ⟨_, _, k', hnext, rfl, hself _, exec_error (Manager.exec_low_fault hno)⟩

/-- A whole collection of a thread alone. -/
theorem Reach.collects {c : Nat} (h : (clients g m n).Reach (fun _ => True) x₀ ⟨⟨w, l⟩, fun _ => none⟩)
    (hrun : run (Manager.exec m t) (Manager.gc n) w = .ok (c, w')) :
    ∃ l', (clients g m n).Reach (fun _ => True) x₀ ⟨⟨w', l'⟩, fun _ => none⟩ := by
  obtain ⟨l', hrun⟩ := run_alone _ _ l hrun
  have hwhole : run (exec m t) (code g n .gc) ⟨w, l⟩ = .ok (.marked c, ⟨w', l'⟩) := by
    refine (run_bind ..).trans ?_
    rw [hrun]
    rfl
  exact ⟨l', h.whole (fun _ => trivial) t .gc 0 _ _ rfl trivial hwhole⟩

end

theorem fresh_loaded : ¬ Manager.Loaded fresh 0 := by
  unfold Manager.Loaded
  decide +kernel

/-- A memo table that is too short for its mask. -/
theorem get_panic {K V : Type} [Inhabited K] [Inhabited V] [DecidableEq K] {c : LockFreeCache K V}
    {hash : UInt64} (q : K) (h : ¬ c.slotIdx hash < c.entries.len) : c.get hash q = .error .panic :=
  if_neg h

theorem outsized_short : ¬ (outsized.mgr 0).notCache.slotIdx (splitmix64 (addr y0)) <
    (outsized.mgr 0).notCache.entries.len := by
  decide +kernel

/-- ... and not without these conditions. -/
theorem clients_insecure :
    (∃ s o k, (clients (fresh.consts 0) 0 60).Reach (fun _ => True) ⟨fresh, []⟩ s ∧
      s.world.Holds (fresh.consts 0) 0 x0 ∧ ¬ s.world.world.heap.Has x0 ∧
      s.pc 0 = some (.op (.not x0), .step o k) ∧ exec 0 0 o s.world = .error .fault) ∧
    ∃ s o k, (clients (outsized.consts 0) 0 60).Reach (fun _ => True) ⟨outsized, []⟩ s ∧
      s.pc 0 = some (.op (.not y0), .step o k) ∧ exec 0 0 o s.world = .error .panic := by
  constructor
  · obtain ⟨hf, -⟩ := Manager.fresh_founded
    obtain ⟨-, -, hT, hF⟩ := Manager.fresh_small
    obtain ⟨hcell, hload, -, -, hcache, -⟩ := Manager.robbed_cells
    obtain ⟨hl, hk⟩ := Manager.x0_kept
    have hm : fresh.made 0 = true := hf.here
    have hhas := (hf.inv.table 0 hm).nodes.has x0 hl
    obtain ⟨l, hreach⟩ := Reach.hoard (n := 59) hf.idle fresh_loaded hhas hk (2 ^ 64 - 1)
    have hmax : fresh.recount x0 (· + UInt64.ofNat (2 ^ 64 - 1)) = fresh.recount x0 (· - 1) :=
      congrArg (fresh.recount x0) (funext Manager.add_max)
    rw [hmax] at hreach
    obtain ⟨⟨c, hrun⟩, -, -, hidle, -⟩ := Manager.fresh_gc
    obtain ⟨l', hgc⟩ := Reach.collects hreach hrun
    have hno : ¬ robbed.heap.Has x0 := by
      rintro ⟨n, hn⟩
      rw [hn] at hcell
      cases hcell
    have hget : (robbed.mgr 0).notCache.get (splitmix64 (addr x0)) x0 = .ok 0 := by
      cases hc : (robbed.mgr 0).notCache.get (splitmix64 (addr x0)) x0 with
      | ok v =>
        rw [hc] at hcache
        exact congrArg Except.ok (Option.some.inj hcache)
      | error e =>
        rw [hc] at hcache
        cases hcache
    obtain ⟨s, o, k, hs, hheap, hpc, hex⟩ := Reach.stops (n := 59) hgc hidle hload hk hT hF
      (Or.inr ⟨hget, hno, rfl⟩) 0
    exact ⟨s, o, k, hs, Or.inr hk, by rwa [hheap], hpc, hex⟩
  · have hf : Manager.Founded 0 8 (2 ^ 30) 2 Manager.blank outsized := by
      unfold outsized
      exact (Manager.single_init 8 (2 ^ 30) 2 (by decide) (by decide)).2
    obtain ⟨hload, hT, hF, -⟩ := Manager.outsized_cells
    have hk : (outsized.consts 0).Kept y0 := by
      unfold y0
      exact (Manager.firstVar_kept hf (by decide)).2
    have hget : (outsized.mgr 0).notCache.get (splitmix64 (addr y0)) y0 = .error .panic :=
      get_panic y0 outsized_short
    obtain ⟨s, o, k, hs, -, hpc, hex⟩ := Reach.stops (n := 59) .init hf.idle hload hk hT hF
      (Or.inl hget) 0
    exact ⟨s, o, k, hs, hpc, hex⟩

end Tobdd.ManagerThreads
