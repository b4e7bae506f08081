import Mathlib.Logic.Relation
import Tobdd.Owners

/-!
# Programs of a client

Code that uses one manager, in one thread, is a `Prog calls α`: each method it calls is one step,
and does what the code of the manager does when it runs alone (`Client.exec`).

`Holds m s₀ rs s` says what such code has in hand in `s`: for each part of `rs` a handle, what it
stands for, and whether a reference was taken that has to be given back.  Next to that everything
is as in `s₀`, where the code began.

    wp_call, wp_release: how a call, and giving back its result, change what is in hand
    run_client: code with a specification returns, or panics where the arrays cannot grow; and its
      run is one of the runs of calls of `Owners`
-/

namespace Tobdd

open Resume Diagram

namespace Client

open Manager World

/-! ## The code of a client -/

/-- What a client does: it calls an operation, gives a reference back, or panics. -/
inductive Op where
  | call (c : Call)
  | derefBdd (a : Bdd)
  | panic

def calls : Sig where
  Op := Op
  Res
    | .call _ => Bdd
    | .derefBdd _ => Unit
    | .panic => Empty

def call (c : Call) : Prog calls Bdd := .op (S := calls) (.call c)

def derefBdd (a : Bdd) : Prog calls Unit := .op (S := calls) (.derefBdd a)

/-- `xs[i]` -/
def index {α : Type} (xs : List α) (i : Nat) : Prog calls α :=
  match xs[i]? with
  | some a => .ret a
  | none => .step (S := calls) .panic fun r => nomatch r

/-- `get_var` -/
def getVar (g : Consts) (var : Nat) : Prog calls Bdd := index g.vars var

/-- `get_nvar` -/
def getNvar (g : Consts) (var : Nat) : Prog calls Bdd := index g.nvars var

/-- Rounds enough for one call. -/
def rounds (w : World) (m : Nat) : Nat := 2 * w.heap.brk + (w.consts m).numVars + 2

/-- One method of manager `m`, called in thread `t`. -/
def exec (m t : Nat) : (o : Op) → Session → Except Stop (calls.Res o × Session)
  | .call c, s =>
    match run (Manager.exec m t) (c.prog (s.world.consts m) (rounds s.world m)) s.world with
    | .ok (r, w) => .ok (r, ⟨w, Function.update s.own r (s.own r + 1)⟩)
    | .error e => .error e
  | .derefBdd a, s =>
    match run (Manager.exec m t) (Manager.derefBdd a) s.world with
    | .ok (_, w) => .ok ((), ⟨w, Function.update s.own a (s.own a - 1)⟩)
    | .error e => .error e
  | .panic, _ => .error .panic

/-- A call, after which the references can still be counted. -/
def Counts (t m : Nat) (s s' : Session) : Prop := Moves t m s s' ∧ s'.Fair m

/-- A client alone.  It may panic where the arrays of the manager cannot grow. -/
def logic (m t : Nat) : Logic calls Session :=
  Logic.alone (exec m t) (Relation.ReflTransGen (Counts t m)) fun e s => e = .panic ∧ ¬ s.world.Roomy m

/-! ## What is in hand -/

/-- A handle, and whether a reference to it was taken. -/
structure BddRef where
  id : Bdd
  refed : Bool
  deriving DecidableEq, Repr

/-- `a` stands for the function that is true where `P` holds. -/
def Means (w : World) (m : Nat) (a : Bdd) (P : (Nat → Bool) → Prop) : Prop :=
  ∃ f, w.Stands m a f ∧ ∀ x, f x = true ↔ P x

/-- A handle of the client's, and where what it stands for is true. -/
structure Part where
  ref : BddRef
  meaning : (Nat → Bool) → Prop

/-- The references to `a` among `rs` that have to be given back. -/
def owed (rs : List Part) (a : Bdd) : Nat := rs.countP fun p => p.ref.refed && decide (p.ref.id = a)

/-- What the client had before: nothing was given back too often, and there is room for more. -/
structure Modest (s : Session) : Prop where
  given : ∀ a, 0 ≤ s.own a
  few : ∀ a, s.own a < 2 ^ 63

structure Holds (m : Nat) (s₀ : Session) (rs : List Part) (s : Session) : Prop where
  accounted : Accounted s m
  consts : s.world.consts m = s₀.world.consts m
  own : ∀ a, s.own a = s₀.own a + owed rs a
  means : ∀ p ∈ rs, Means s.world m p.ref.id p.meaning
  kept : ∀ p ∈ rs, p.ref.refed = false → (s₀.world.consts m).Kept p.ref.id
  frame : ∀ a f, s₀.Held m a → s₀.world.Stands m a f → s.world.Stands m a f

section
variable {m t : Nat} {s₀ s s' : Session} {rs rs' : List Part} {p q : Part} {a : Bdd}
  {P Q : (Nat → Bool) → Prop} {α : Type}

theorem owed_le (rs : List Part) (a : Bdd) : owed rs a ≤ rs.length := List.countP_le_length

@[simp] theorem owed_nil (a : Bdd) : owed [] a = 0 := rfl

theorem owed_cons (p : Part) (rs : List Part) (a : Bdd) :
    owed (p :: rs) a = owed rs a + if p.ref.refed = true ∧ p.ref.id = a then 1 else 0 := by
  unfold owed
  rw [List.countP_cons]
  simp only [Bool.and_eq_true, decide_eq_true_eq]

theorem owed_pos (hp : p ∈ rs) (hr : p.ref.refed = true) : 0 < owed rs p.ref.id := by
  unfold owed
  rw [List.countP_pos_iff]
  exact ⟨p, hp, by simp [hr]⟩

theorem Holds.start (h : Accounted s m) : Holds m s [] s := by
  refine ⟨h, rfl, ?_, ?_, ?_, fun _ _ _ hs => hs⟩
  · intro a
    simp
  · intro p hp
    simp at hp
  · intro p hp
    simp at hp

/-- What was held before is still held. -/
theorem Holds.before (h : Holds m s₀ rs s) (ha : s₀.Held m a) : s.Held m a := by
  rcases ha with ha | ha
  · left
    have ho := h.own a
    omega
  · right
    rwa [h.consts]

/-- What is in hand is held. -/
theorem Holds.held (h : Holds m s₀ rs s) (h₀ : Modest s₀) (hp : p ∈ rs) : s.Held m p.ref.id := by
  cases hr : p.ref.refed with
  | true =>
    left
    have ho := h.own p.ref.id
    have hg := h₀.given p.ref.id
    have hpos := owed_pos hp hr
    omega
  | false =>
    right
    rw [h.consts]
    exact h.kept p hp hr

/-- What a modest client has in hand can be counted. -/
theorem Modest.fair (h₀ : Modest s₀) (hl : rs.length < 2 ^ 62)
    (hown : ∀ a, s.own a = s₀.own a + owed rs a) : s.Fair m := by
  have hb : ∀ a, 0 ≤ s.own a ∧ s.own a < 2 ^ 63 + 2 ^ 62 := by
    intro a
    have ho := hown a
    have hg := h₀.given a
    have hf := h₀.few a
    have hle := owed_le rs a
    omega
  constructor
  · intro a
    exact (hb a).1
  · intro a
    have := (hb a).2
    unfold Session.refs
    split <;> omega

/-- The order does not matter. -/
theorem Holds.perm (h : Holds m s₀ rs s) (hp : rs.Perm rs') : Holds m s₀ rs' s := by
  refine ⟨h.accounted, h.consts, ?_, ?_, ?_, h.frame⟩
  · intro a
    rw [h.own a]
    unfold owed
    rw [hp.countP_eq]
  · intro p hm
    exact h.means p (hp.mem_iff.mpr hm)
  · intro p hm
    exact h.kept p (hp.mem_iff.mpr hm)

/-- What a handle stands for can be said in another way. -/
theorem Holds.imp {r : BddRef} (h : Holds m s₀ (⟨r, P⟩ :: rs) s) (hP : ∀ x, P x ↔ Q x) :
    Holds m s₀ (⟨r, Q⟩ :: rs) s := by
  have hPQ : P = Q := funext fun x => propext (hP x)
  rwa [← hPQ]

/-- A handle that the manager keeps is there to use. -/
theorem Holds.borrow (h : Holds m s₀ rs s) (hk : (s₀.world.consts m).Kept a)
    (ha : Means s₀.world m a P) : Holds m s₀ (⟨⟨a, false⟩, P⟩ :: rs) s := by
  refine ⟨h.accounted, h.consts, ?_, ?_, ?_, h.frame⟩
  · intro b
    rw [h.own b, owed_cons]
    simp
  · intro p hp
    rcases List.mem_cons.mp hp with rfl | hp
    · obtain ⟨f, hf, hfP⟩ := ha
      exact ⟨f, h.frame a f (Or.inr hk) hf, hfP⟩
    · exact h.means p hp
  · intro p hp hr
    rcases List.mem_cons.mp hp with rfl | hp
    · exact hk
    · exact h.kept p hp hr

/-- ... and need not be given back. -/
theorem Holds.drop (h : Holds m s₀ (p :: rs) s) (hp : p.ref.refed = false) : Holds m s₀ rs s := by
  refine ⟨h.accounted, h.consts, ?_, ?_, ?_, h.frame⟩
  · intro b
    rw [h.own b, owed_cons]
    simp [hp]
  · intro q hq
    exact h.means q (List.mem_cons_of_mem _ hq)
  · intro q hq
    exact h.kept q (List.mem_cons_of_mem _ hq)

/-- What one call leaves of what was in hand. -/
theorem Holds.moved (h : Holds m s₀ rs s) (h₀ : Modest s₀) (hmv : Moved m s s')
    (hown : ∀ a, s'.own a = s₀.own a + owed rs' a)
    (hsub : ∀ p ∈ rs', p ∈ rs ∨ p.ref.refed = true ∧ Means s'.world m p.ref.id p.meaning) :
    Holds m s₀ rs' s' := by
  have hm := h.accounted.made
  have hstay : ∀ a f, s.Held m a → s.world.Stands m a f → s'.world.Stands m a f := by
    intro a f ha hf
    exact hmv.onward.stands m a f hm hf (hmv.frees a ha)
  refine ⟨hmv.accounted, (hmv.onward.consts m hm).trans h.consts, hown, ?_, ?_, ?_⟩
  · intro p hp
    rcases hsub p hp with hp | ⟨-, hp⟩
    · obtain ⟨f, hf, hfP⟩ := h.means p hp
      exact ⟨f, hstay _ f (h.held h₀ hp) hf, hfP⟩
    · exact hp
  · intro p hp hr
    rcases hsub p hp with hp | ⟨ht, -⟩
    · exact h.kept p hp hr
    · rw [hr] at ht
      cases ht
  · intro a f ha hf
    exact hstay a f (h.before ha) (h.frame a f ha hf)

/-! ## The rules -/

theorem exec_call_ok {c : Call} {r : Bdd} {w : World}
    (h : run (Manager.exec m t) (c.prog (s.world.consts m) (rounds s.world m)) s.world = .ok (r, w)) :
    exec m t (.call c) s = .ok (r, ⟨w, Function.update s.own r (s.own r + 1)⟩) := by
  simp only [exec, h]

theorem exec_call_error {c : Call} {e : Stop}
    (h : run (Manager.exec m t) (c.prog (s.world.consts m) (rounds s.world m)) s.world = .error e) :
    exec m t (.call c) s = .error e := by
  simp only [exec, h]

theorem exec_derefBdd_ok {w : World}
    (h : run (Manager.exec m t) (Manager.derefBdd a) s.world = .ok ((), w)) :
    exec m t (.derefBdd a) s = .ok ((), ⟨w, Function.update s.own a (s.own a - 1)⟩) := by
  simp only [exec, h]

theorem wp_index {β : Type} {xs : List β} {i : Nat} {b : β} {k : β → Prog calls α}
    {R : α → Session → Prop} (hb : xs[i]? = some b) (h : wp (logic m t) (k b) R s) :
    wp (logic m t) (index xs i >>= k) R s := by
  unfold index
  rw [hb]
  exact h

/-- **An operation** on handles that are in hand: its result is in hand too, and referenced. -/
theorem wp_call {c : Call} (h : Holds m s₀ rs s) (h₀ : Modest s₀) (hl : rs.length + 1 < 2 ^ 62)
    (hargs : ∀ a ∈ c.args, ∃ p ∈ rs, p.ref.id = a)
    (hspec : ∃ F, c.Spec (s.world.Stands m) F ∧ ∀ x, F x = true ↔ P x) :
    wp (logic m t) (call c) (fun r => Holds m s₀ (⟨⟨r, true⟩, P⟩ :: rs)) s := by
  have hacc := h.accounted
  have hi := hacc.resting.inv
  have hm := hacc.made
  have hidle := hacc.resting.idle m hm
  have hf : s.Fair m := h₀.fair (Nat.lt_of_succ_lt hl) h.own
  have hheld : ∀ a ∈ c.args, s.Held m a := by
    intro a ha
    obtain ⟨p, hp, rfl⟩ := hargs a ha
    exact h.held h₀ hp
  rcases run_call_returns (c := c) hi hm hidle (enough_of_le (Nat.le_refl _))
    (fun _ => hacc.usable hf hheld) t with ⟨r, w', hrun⟩ | ⟨hrun, hroom⟩
  · obtain ⟨F, hF, hst⟩ := hacc.call_meets hf hheld hrun
    obtain ⟨F', hF', hP⟩ := hspec
    obtain rfl : F' = F := hF'.unique (fun a f f' h1 h2 =>
      (hi.table m hm).nodes.functional h1.2 h2.2) hF
    have hmoves : Moves t m s ⟨w', Function.update s.own r (s.own r + 1)⟩ := by
      refine .call _ c r (fun w₂ he => ?_) hrun rfl
      -- what `enter_op` collects is not in hand
      rcases run_enterOp hi hm hidle t _ with ⟨w₁, w₂', he', hent⟩ | ⟨e, he', -⟩
      · obtain ⟨-, rfl⟩ := Prod.mk.inj (Except.ok.inj (he'.symm.trans he))
        intro a ha
        rw [hent.eq, withLock_store]
        exact hacc.survives hf hent.shrinks (hheld a ha)
      · cases he'.symm.trans he
    have hown : ∀ a, Function.update s.own r (s.own r + 1) a =
        s₀.own a + owed (⟨⟨r, true⟩, P⟩ :: rs) a := by
      intro a
      rw [owed_cons]
      by_cases ha : a = r
      · subst ha
        rw [Function.update_self, h.own a]
        simp
        omega
      · rw [Function.update_of_ne ha, h.own a]
        simp [Ne.symm ha]
    have hfair : Session.Fair ⟨w', Function.update s.own r (s.own r + 1)⟩ m := by
      apply h₀.fair _ hown
      simpa using hl
    have hmv := hmoves.moved hacc hf hfair
    apply wp_answer (exec_call_ok hrun) (.single ⟨hmoves, hfair⟩)
    refine h.moved h₀ hmv hown ?_
    intro p hp
    rcases List.mem_cons.mp hp with rfl | hp
    · exact Or.inr ⟨rfl, F', hst, hP⟩
    · exact Or.inl hp
  · rintro s' rfl
    exact Logic.Does.of_error trivial (exec_call_error hrun)
      ⟨rfl, fun h => hroom (spacious_of_roomy h hi hm)⟩

theorem wp_and (h : Holds m s₀ rs s) (h₀ : Modest s₀) (hl : rs.length + 1 < 2 ^ 62) (hp : p ∈ rs)
    (hq : q ∈ rs) : wp (logic m t) (call (.and p.ref.id q.ref.id))
      (fun r => Holds m s₀ (⟨⟨r, true⟩, fun x => p.meaning x ∧ q.meaning x⟩ :: rs)) s := by
  obtain ⟨f, hf, hfp⟩ := h.means p hp
  obtain ⟨f', hf', hfq⟩ := h.means q hq
  apply wp_call h h₀ hl
  · intro a ha
    simp only [Call.args, List.mem_cons, List.not_mem_nil, or_false] at ha
    rcases ha with rfl | rfl
    · exact ⟨p, hp, rfl⟩
    · exact ⟨q, hq, rfl⟩
  · refine ⟨_, ⟨f, f', hf, hf', rfl⟩, ?_⟩
    intro x
    rw [Bool.and_eq_true, hfp, hfq]

theorem wp_or (h : Holds m s₀ rs s) (h₀ : Modest s₀) (hl : rs.length + 1 < 2 ^ 62) (hp : p ∈ rs)
    (hq : q ∈ rs) : wp (logic m t) (call (.or p.ref.id q.ref.id))
      (fun r => Holds m s₀ (⟨⟨r, true⟩, fun x => p.meaning x ∨ q.meaning x⟩ :: rs)) s := by
  obtain ⟨f, hf, hfp⟩ := h.means p hp
  obtain ⟨f', hf', hfq⟩ := h.means q hq
  apply wp_call h h₀ hl
  · intro a ha
    simp only [Call.args, List.mem_cons, List.not_mem_nil, or_false] at ha
    rcases ha with rfl | rfl
    · exact ⟨p, hp, rfl⟩
    · exact ⟨q, hq, rfl⟩
  · refine ⟨_, ⟨f, f', hf, hf', rfl⟩, ?_⟩
    intro x
    rw [Bool.or_eq_true, hfp, hfq]

/-- **Giving a reference back.** -/
theorem wp_derefBdd (h : Holds m s₀ (⟨⟨a, true⟩, P⟩ :: rs) s) (h₀ : Modest s₀)
    (hl : rs.length + 1 < 2 ^ 62) :
    wp (logic m t) (derefBdd a) (fun _ => Holds m s₀ rs) s := by
  have hacc := h.accounted
  have hf : s.Fair m := by
    apply h₀.fair _ h.own
    simpa using hl
  have hlive := hacc.live a (h.held h₀ (List.mem_cons_self ..))
  have hhas := (hacc.resting.inv.table m hacc.made).nodes.has a hlive
  have hrun : run (Manager.exec m t) (Manager.derefBdd a) s.world = .ok ((), s.world.recount a (· - 1)) :=
    run_step_ok (exec_fetchSub hhas)
  have hown : ∀ b, Function.update s.own a (s.own a - 1) b = s₀.own b + owed rs b := by
    intro b
    have ho := h.own b
    rw [owed_cons] at ho
    by_cases hb : b = a
    · subst hb
      rw [Function.update_self, ho]
      simp
      omega
    · rw [Function.update_of_ne hb, ho]
      simp [Ne.symm hb]
  have hmoves : Moves t m s ⟨s.world.recount a (· - 1), Function.update s.own a (s.own a - 1)⟩ :=
    .derefBdd a hlive hrun rfl
  have hfair : Session.Fair ⟨s.world.recount a (· - 1), Function.update s.own a (s.own a - 1)⟩ m :=
    h₀.fair (Nat.lt_of_succ_lt hl) hown
  have hmv := hmoves.moved hacc hf hfair
  apply wp_answer (exec_derefBdd_ok hrun) (.single ⟨hmoves, hfair⟩)
  refine h.moved h₀ hmv hown ?_
  intro p hp
  exact Or.inl (List.mem_cons_of_mem _ hp)

/-- `if r.refed { manager.deref_bdd(r.id); }` -/
def release (r : BddRef) : Prog calls Unit := if r.refed then derefBdd r.id else .ret ()

theorem wp_release (h : Holds m s₀ (p :: rs) s) (h₀ : Modest s₀) (hl : rs.length + 1 < 2 ^ 62) :
    wp (logic m t) (release p.ref) (fun _ => Holds m s₀ rs) s := by
  obtain ⟨⟨a, refed⟩, P⟩ := p
  cases refed with
  | true => exact wp_derefBdd h h₀ hl
  | false => exact h.drop rfl

/-- **A client with a specification** returns, or panics in a state in which the arrays of the
manager cannot grow.  What it called is a sequence of calls. -/
theorem run_client {k : Prog calls α} {R : α → Session → Prop} (h : wp (logic m t) k R s) :
    (∃ r s', run (exec m t) k s = .ok (r, s') ∧ R r s' ∧ Relation.ReflTransGen (Counts t m) s s') ∨
    ∃ s', run (exec m t) k s = .error .panic ∧ ¬ s'.world.Roomy m ∧
      Relation.ReflTransGen (Counts t m) s s' := by
  rcases wp_run (fun _ => .refl) (fun _ _ _ => .trans) h with h | ⟨e, s', hrun, ⟨rfl, hroom⟩, hc⟩
  · exact Or.inl h
  · exact Or.inr ⟨s', hrun, hroom, hc⟩

end

/-! ## What a manager comes with -/

/-- The nodes that manager `m` keeps: what they stand for, and that there are no others below
them. -/
structure Furnished (w : World) (m : Nat) : Prop where
  top : w.Stands m (w.consts m).trueId fun _ => true
  var : ∀ i, i < (w.consts m).numVars → ∃ v, (w.consts m).vars[i]? = some v ∧ w.Stands m v fun x => x i
  nvar : ∀ i, i < (w.consts m).numVars → ∃ v, (w.consts m).nvars[i]? = some v ∧
    w.Stands m v fun x => !(x i)
  closed : ∀ a c, (w.consts m).Kept a → w.heap.Child a c → (w.consts m).Kept c
  count : ∃ M : Finset Bdd, (∀ a, a ∈ M ↔ (w.consts m).Kept a) ∧ M.card = 2 + 2 * (w.consts m).numVars

section
variable {m t n : Nat} {s s' : Session} {σ : Nat → Session}

theorem Furnished.moved (h : Furnished s.world m) (ha : Accounted s m) (hmv : Moved m s s') :
    Furnished s'.world m := by
  have hcon := hmv.onward.consts m ha.made
  have hstay : ∀ a f, (s.world.consts m).Kept a → s.world.Stands m a f → s'.world.Stands m a f := by
    intro a f hk hf
    exact hmv.onward.stands m a f ha.made hf (hmv.frees a (Or.inr hk))
  constructor
  · rw [hcon]
    exact hstay _ _ (Or.inl rfl) h.top
  · rw [hcon]
    intro i hi
    obtain ⟨v, hv, hst⟩ := h.var i hi
    exact ⟨v, hv, hstay v _ (Or.inr (Or.inr (Or.inl (List.mem_of_getElem? hv)))) hst⟩
  · rw [hcon]
    intro i hi
    obtain ⟨v, hv, hst⟩ := h.nvar i hi
    exact ⟨v, hv, hstay v _ (Or.inr (Or.inr (Or.inr (List.mem_of_getElem? hv)))) hst⟩
  · rw [hcon]
    rintro a c hk ⟨-, hc', hc⟩
    have hn := (ha.resting.inv.table m ha.made).nodes
    have hla := ha.live a (Or.inr hk)
    -- the children are what they were
    have hsame := hmv.onward.node m a ha.made hla (hmv.frees a (Or.inr hk))
    rw [hsame.low, hsame.high] at hc
    have hlc := (hn.child hla hc'.ne_zero hc).1
    exact h.closed a c hk ⟨hn.has a hla, hn.has c hlc, hc⟩
  · rw [hcon]
    exact h.count

theorem furnished_begins (h : Begins t m s) : Furnished s.world m := by
  have hacc := h.accounted
  have hi := hacc.resting.inv
  obtain ⟨w, tableSize, cacheSize, varNum, n, hr, hw, hm, hinit, -⟩ := h
  rcases run_init (hr.resting hw).inv hm t tableSize cacheSize varNum n with
    ⟨w', hrun, hf⟩ | ⟨e, hrun, -⟩
  · obtain rfl := Except.ok.inj (hrun.symm.trans hinit)
    constructor
    · exact ⟨hacc.live _ (held_top s m), .top⟩
    · rw [hf.numVars]
      exact hf.var
    · rw [hf.numVars]
      exact hf.nvar
    · intro a c hk hc
      rw [← hf.kept] at hk ⊢
      exact (hi.table m hacc.made).nodes.child_mem a c hk hc
    · have hsound := hi.sound hacc.made
      have hM : ∀ a, a ∈ (s.world.store m).nodes.toFinset ↔ (s.world.store m).Live a := by
        intro a
        rw [List.mem_toFinset, Store.mem_nodes]
      refine ⟨(s.world.store m).nodes.toFinset, fun a => (hM a).trans (hf.kept a), ?_⟩
      rw [← hsound.card hM, hf.count, hf.numVars]
  · cases hrun.symm.trans hinit

theorem History.furnished (h : History t m n σ) (hf : ∀ i, i ≤ n → (σ i).Fair m) :
    ∀ i, i ≤ n → Furnished (σ i).world m := by
  intro i
  induction i with
  | zero =>
    intro _
    exact furnished_begins h.begins
  | succ i ih =>
    intro hi
    have hle : i ≤ n := Nat.le_of_succ_le hi
    exact (ih hle).moved (h.accounted hf i hle) (h.moved hf hi)

/-- The calls of a client, after those there were, are a run of calls. -/
theorem History.calls (h : History t m n σ) (hf : ∀ i, i ≤ n → (σ i).Fair m)
    (hc : Relation.ReflTransGen (Counts t m) (σ n) s') :
    ∃ n' σ', n ≤ n' ∧ History t m n' σ' ∧ (∀ i, i ≤ n' → (σ' i).Fair m) ∧ σ' n' = s' := by
  induction hc with
  | refl => exact ⟨n, σ, Nat.le_refl n, h, hf, rfl⟩
  | tail _ hlast ih =>
    obtain ⟨hmoves, hfair⟩ := hlast
    obtain ⟨n', σ', hle, h', hf', rfl⟩ := ih
    refine ⟨n' + 1, extend σ' n' _, Nat.le_succ_of_le hle, h'.snoc hmoves, ?_, extend_last ..⟩
    exact extend_all (P := fun x => x.Fair m) hf' hfair

/-! ## What a client leaves -/

/-- **`gc` leaves what is held** and what is below it, and answers with its number. -/
theorem gc_held (h : Accounted s m) (hf : s.Fair m) (t : Nat) :
    ∃ N, ∀ n, N ≤ n → ∃ c w', run (Manager.exec m t) (gc n) s.world = .ok (c, w') ∧
      (∀ a, (w'.store m).Live a ↔ ∃ b, s.Held m b ∧ s.world.heap.Reaches b a) ∧
      ∃ M : Finset Bdd, c = M.card ∧ ∀ a, a ∈ M ↔ (w'.store m).Live a := by
  have hi := h.resting.inv
  have hm := h.made
  refine ⟨2 * s.world.heap.brk + (s.world.consts m).numVars + 2, fun n hn => ?_⟩
  rcases run_gc hi hm (h.resting.idle m hm) t n with ⟨c, w', hrun, -, -, -, hlive, M⟩ | ⟨-, hen⟩
  · refine ⟨c, w', hrun, ?_, M⟩
    intro a
    rw [hlive]
    constructor
    · rintro ⟨b, hb, hne, hba⟩
      refine ⟨b, ?_, hba⟩
      -- a count that is not zero is a reference of the client's or of the manager's
      by_contra hno
      apply hne
      have hc := h.counts b hb
      unfold Session.Held at hno
      push Not at hno
      have hg := hf.given b
      unfold Session.refs at hc
      rw [if_neg hno.2] at hc
      rw [← UInt64.toNat_inj]
      show (s.world.heap.get b).refCnt.toNat = 0
      omega
    · rintro ⟨b, hb, hba⟩
      exact ⟨b, h.live b hb, h.refCnt_ne hf hb, hba⟩
  · exact absurd (enough_of_le hn) hen

/-- When everything was given back, it leaves what the manager came with. -/
theorem gc_furnished (h : Accounted s m) (hf : s.Fair m) (hfur : Furnished s.world m)
    (hown : ∀ a, s.own a = 0) (t : Nat) :
    ∃ N, ∀ n, N ≤ n → ∃ w', run (Manager.exec m t) (gc n) s.world =
      .ok (2 + 2 * (s.world.consts m).numVars, w') ∧
      ∀ a, (w'.store m).Live a ↔ (s.world.consts m).Kept a := by
  obtain ⟨N, hN⟩ := gc_held h hf t
  refine ⟨N, fun n hn => ?_⟩
  obtain ⟨c, w', hrun, hlive, M, rfl, hM⟩ := hN n hn
  have hkept : ∀ a, (w'.store m).Live a ↔ (s.world.consts m).Kept a := by
    intro a
    rw [hlive]
    constructor
    · rintro ⟨b, hb, hba⟩
      have hkb : (s.world.consts m).Kept b := by
        rcases hb with hb | hb
        · have := hown b
          omega
        · exact hb
      exact hba.mem hfur.closed hkb
    · intro ha
      exact ⟨a, Or.inr ha, .refl⟩
  obtain ⟨M', hM', hcard⟩ := hfur.count
  have heq : M = M' := by
    ext a
    rw [hM, hkept, hM']
  rw [heq, hcard] at hrun
  exact ⟨w', hrun, hkept⟩

/-- The code of a client returns a handle that stands for what is true where `P` holds, and the
reference to it is all that is left to give back; or it panics where the arrays of the manager
cannot grow. -/
def Builds (m t : Nat) (k : Prog calls BddRef) (s : Session) (P : (Nat → Bool) → Prop) : Prop :=
  (∃ r s', run (exec m t) k s = .ok (r, s') ∧ Holds m s [⟨r, P⟩] s' ∧
    Relation.ReflTransGen (Counts t m) s s') ∨
  ∃ s', run (exec m t) k s = .error .panic ∧ ¬ s'.world.Roomy m ∧
    Relation.ReflTransGen (Counts t m) s s'

theorem builds_of_wp {k : Prog calls BddRef} {P : (Nat → Bool) → Prop}
    (h : wp (logic m t) k (fun r => Holds m s [⟨r, P⟩]) s) : Builds m t k s P := by
  rcases run_client h with ⟨r, s', hrun, hr, hc⟩ | h
  · exact Or.inl ⟨r, s', hrun, hr, hc⟩
  · exact Or.inr h

/-- In every state of a run of calls, `gc` leaves what is held and what is below it; and what the
manager came with, when everything was given back. -/
theorem History.gc_leaves (h : History t m n σ) (hf : ∀ i, i ≤ n → (σ i).Fair m) :
    (∃ N, ∀ k, N ≤ k → ∃ c w', run (Manager.exec m t) (gc k) (σ n).world = .ok (c, w') ∧
      (∀ a, (w'.store m).Live a ↔ ∃ b, (σ n).Held m b ∧ (σ n).world.heap.Reaches b a) ∧
      ∃ M : Finset Bdd, c = M.card ∧ ∀ a, a ∈ M ↔ (w'.store m).Live a) ∧
    ((∀ a, (σ n).own a = 0) → ∃ N, ∀ k, N ≤ k → ∃ w', run (Manager.exec m t) (gc k) (σ n).world =
      .ok (2 + 2 * ((σ n).world.consts m).numVars, w') ∧
      ∀ a, (w'.store m).Live a ↔ ((σ n).world.consts m).Kept a) := by
  have hacc := h.accounted hf n (Nat.le_refl n)
  have hfair := hf n (Nat.le_refl n)
  constructor
  · exact gc_held hacc hfair t
  · intro hown
    exact gc_furnished hacc hfair (History.furnished h hf n (Nat.le_refl n)) hown t

end

/-- A new manager, as the state of a client that has taken nothing. -/
def started (varNum : Nat) : Session := ⟨single 8 8 varNum, fun _ => 0⟩

theorem started_begins {varNum : Nat} (hv : varNum * 8 < 2 ^ 63) : Begins 0 0 (started varNum) :=
  single_begins 8 8 varNum (by decide) hv

theorem started_numVars {varNum : Nat} (hv : varNum * 8 < 2 ^ 63) :
    ((started varNum).world.consts 0).numVars = varNum :=
  (single_init 8 8 varNum (by decide) hv).2.numVars

/-- The run of no calls. -/
theorem Begins.history {t m : Nat} {s : Session} (h : Begins t m s) :
    History t m 0 (fun _ => s) ∧ s.Fair m := by
  obtain ⟨-, -, -, -, -, -, -, -, -, hown⟩ := id h
  refine ⟨⟨h, fun i hi => by omega⟩, ?_, ?_⟩
  · intro a
    rw [hown]
  · intro a
    unfold Session.refs
    rw [hown]
    split <;> simp

/-- A client gives back all that it computed. -/
def settling : List Order :=
  [.call 0 (.and x0 x1), .call 0 (.or x0 x1), .derefBdd 0 either, .derefBdd 0 both]

@[irreducible] def settlingStates : Nat → Session :=
  Order.states 0 60 settling ⟨fresh, fun _ => 0⟩

theorem settling_history :
    History 0 0 4 settlingStates ∧ ∀ i, i ≤ 4 → (settlingStates i).Fair 0 := by
  have hb : Begins 0 0 ⟨fresh, fun _ => 0⟩ := by
    unfold fresh
    exact single_begins 8 8 2 (by decide) (by decide)
  have hon : ∀ o ∈ settling, o.On 0 := by
    unfold settling
    decide
  unfold settlingStates
  exact Order.states_history (l := settling) hb (by decide +kernel) hon (by decide +kernel) (by decide)

/-- While the conjunction is still held, it alone is left of the two; and then neither. -/
theorem gc_leaves_settling :
    (∃ N, ∀ k, N ≤ k → ∃ c w', run (Manager.exec 0 0) (gc k) (settlingStates 3).world = .ok (c, w') ∧
      (w'.store 0).Live both ∧ ¬ (w'.store 0).Live either) ∧
    (∃ N, ∀ k, N ≤ k → ∃ w', run (Manager.exec 0 0) (gc k) (settlingStates 4).world = .ok (6, w') ∧
      ∀ a, (w'.store 0).Live a ↔ ((settlingStates 4).world.consts 0).Kept a) ∧
    ((settlingStates 3).world.store 0).Live either ∧ ((settlingStates 4).world.store 0).Live both := by
  obtain ⟨hh, hf⟩ := settling_history
  have hacc := hh.accounted hf
  refine ⟨?_, ?_, by decide +kernel, by decide +kernel⟩
  · have hh : History 0 0 3 settlingStates := ⟨hh.begins, fun i hi => hh.moves i (by omega)⟩
    obtain ⟨N, hN⟩ := (History.gc_leaves hh fun i hi => hf i (by omega)).1
    refine ⟨N, fun k hk => ?_⟩
    obtain ⟨c, w', hrun, hlive, -⟩ := hN k hk
    have hboth : 0 < (settlingStates 3).own both := by decide +kernel
    refine ⟨c, w', hrun, (hlive both).mpr ⟨both, Or.inl hboth, .refl⟩, fun he => ?_⟩
    obtain ⟨b, hb, hreach⟩ := (hlive either).mp he
    have hacc := hacc 3 (by omega)
    have hchild : ∀ b ∈ ((settlingStates 3).world.store 0).nodes,
        ((settlingStates 3).world.heap.get b).low ≠ either ∧
          ((settlingStates 3).world.heap.get b).high ≠ either := by
      decide +kernel
    obtain rfl := eq_of_reaches hchild hacc.resting.inv hacc.made (hacc.live b hb) hreach
    have hno : ¬ (0 < (settlingStates 3).own either ∨
        ((settlingStates 3).world.consts 0).Kept either) := by
      decide +kernel
    exact hno hb
  · have hown : ∀ a, (settlingStates 4).own a = 0 := by
      have hnodes : ∀ a ∈ ((settlingStates 4).world.store 0).nodes, (settlingStates 4).own a = 0 := by
        decide +kernel
      intro a
      by_contra h0
      have hpos : 0 < (settlingStates 4).own a := by
        have := (hf 4 (Nat.le_refl 4)).given a
        omega
      exact h0 (hnodes a (Store.mem_nodes.mpr ((hacc 4 (Nat.le_refl 4)).live a (Or.inl hpos))))
    obtain ⟨N, hN⟩ := (History.gc_leaves hh hf).2 hown
    have hvars : 2 + 2 * ((settlingStates 4).world.consts 0).numVars = 6 := by decide +kernel
    rw [hvars] at hN
    exact ⟨N, hN⟩

end Client

end Tobdd
