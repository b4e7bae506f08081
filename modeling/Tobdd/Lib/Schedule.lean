import Tobdd.Lib.Refine
import Tobdd.Lib.Watch

/-!
# Schedules

A run that is computed.  A schedule says which thread moves next, and whether it begins a call or
goes on with the one it is in; `M.follow legal fits l s` lets the threads move in that order from
the configuration `s`, as long as each call is legal and each state fits.

    System.Runs.follow: where the schedule leads, a run leads, with some calls and returns on the way
    Sees.follow: ... and a thread that looks on may wait meanwhile
    Sees.peek: ... or go on, while the others wait
-/

namespace Resume

/-- What a thread does when it is its turn. -/
inductive Turn (Call : Type) where
  /-- begin the call `c` -/
  | call (c : Call) (fuel : Nat)
  /-- take the next operation, or return -/
  | go

variable {S T : Sig} {W Tid Call Ret σ Act α : Type} [DecidableEq Tid]

/-- The answer of a program that has come to its end. -/
def Prog.answer : Prog S α → Option α
  | .ret a => some a
  | .step _ _ => none

theorem Prog.eq_ret {p : Prog S α} {a : α} (h : p.answer = some a) : p = .ret a := by
  cases p with
  | ret b => exact congrArg Prog.ret (Option.some.inj h)
  | step o k => cases h

namespace Conf

/-- The operation that thread `t` comes to. -/
def next (s : Conf S W Tid Call Ret) (t : Tid) : Option S.Op :=
  match s.pc t with
  | some (_, .step o _) => some o
  | _ => none

/-- The call from which thread `t` is about to return, and its answer. -/
def returning (s : Conf S W Tid Call Ret) (t : Tid) : Option (Call × Ret) :=
  match s.pc t with
  | some (c, .ret a) => some (c, a)
  | _ => none

omit [DecidableEq Tid] in
theorem pc_of_returning {s : Conf S W Tid Call Ret} {t : Tid} {c : Call} {a : Ret}
    (h : s.returning t = some (c, a)) : s.pc t = some (c, .ret a) := by
  unfold returning at h
  split at h
  · next hpc =>
    obtain ⟨rfl, rfl⟩ := Prod.mk.inj (Option.some.inj h)
    exact hpc
  · cases h

end Conf

namespace System

/-- The next turn of thread `t`, with what the client sees of it. -/
def turn (M : System S W Tid Call Ret) (legal : Tid → Call → W → Bool) (s : Conf S W Tid Call Ret)
    (t : Tid) : Turn Call → Option (List (Event Tid Call Ret) × Conf S W Tid Call Ret)
  | .call c n =>
    match s.pc t with
    | none =>
      if legal t c s.world then
        some ([.call t c],
          ⟨M.enter t c s.world, Function.update s.pc t (some (c, M.code t c n))⟩)
      else none
    | some _ => none
  | .go =>
    match s.pc t with
    | none => none
    | some (c, .ret a) =>
      some ([.ret t c a], ⟨M.leave t c a s.world, Function.update s.pc t none⟩)
    | some (c, .step o k) =>
      match M.exec t o s.world with
      | .ok (r, w') => some ([], ⟨w', Function.update s.pc t (some (c, k r))⟩)
      | .error _ => none

def follow (M : System S W Tid Call Ret) (legal : Tid → Call → W → Bool) (fits : W → Bool) :
    List (Tid × Turn Call) → List (Event Tid Call Ret) → Conf S W Tid Call Ret →
      Option (List (Event Tid Call Ret) × Conf S W Tid Call Ret)
  | [], h, s => some (h, s)
  | (t, u) :: l, h, s =>
    match M.turn legal s t u with
    | some (d, s') => if fits s'.world then M.follow legal fits l (d ++ h) s' else none
    | none => none

section
variable {M : System S W Tid Call Ret} {legal : Tid → Call → W → Bool} {fits : W → Bool}
  {F : W → Prop} {w0 : W} {s s' : Conf S W Tid Call Ret} {t : Tid} {u : Turn Call}
  {d h h' : List (Event Tid Call Ret)}

/-- The cases of a turn: a call, a return and an operation. -/
theorem turn_cases (hl : ∀ t c w, legal t c w = true → M.legal t c w)
    (ht : M.turn legal s t u = some (d, s')) :
    (∃ c n, s.pc t = none ∧ M.legal t c s.world ∧ d = [.call t c] ∧
      s' = ⟨M.enter t c s.world, Function.update s.pc t (some (c, M.code t c n))⟩) ∨
    (∃ c a, s.pc t = some (c, .ret a) ∧ d = [.ret t c a] ∧
      s' = ⟨M.leave t c a s.world, Function.update s.pc t none⟩) ∨
    ∃ c o k r w', s.pc t = some (c, .step o k) ∧ M.exec t o s.world = .ok (r, w') ∧ d = [] ∧
      s' = ⟨w', Function.update s.pc t (some (c, k r))⟩ := by
  cases u with
  | call c n =>
    simp only [turn] at ht
    split at ht
    · next hpc =>
      split at ht
      · next hc =>
        obtain ⟨rfl, rfl⟩ := Prod.mk.inj (Option.some.inj ht)
        exact Or.inl ⟨c, n, hpc, hl t c s.world hc, rfl, rfl⟩
      · cases ht
    · cases ht
  | go =>
    simp only [turn] at ht
    split at ht
    · cases ht
    · next c a hpc =>
      obtain ⟨rfl, rfl⟩ := Prod.mk.inj (Option.some.inj ht)
      exact Or.inr (Or.inl ⟨c, a, hpc, rfl, rfl⟩)
    · next c o k hpc =>
      split at ht
      · next r w' he =>
        obtain ⟨rfl, rfl⟩ := Prod.mk.inj (Option.some.inj ht)
        exact Or.inr (Or.inr ⟨c, o, k, r, w', hpc, he, rfl, rfl⟩)
      · cases ht

/-- A turn is a step of its thread. -/
theorem turn_step (hl : ∀ t c w, legal t c w = true → M.legal t c w)
    (ht : M.turn legal s t u = some (d, s')) : M.Step s s' ∧ ∀ v, v ≠ t → s'.pc v = s.pc v := by
  obtain ⟨c, n, hpc, hc, -, rfl⟩ | ⟨c, a, hpc, -, rfl⟩ | ⟨c, o, k, r, w', hpc, he, -, rfl⟩ :=
    turn_cases hl ht
  · exact ⟨.call t c n hpc hc, fun v hv => Function.update_of_ne hv _ _⟩
  · exact ⟨.ret t c a hpc, fun v hv => Function.update_of_ne hv _ _⟩
  · exact ⟨.exec t c o k r w' hpc he, fun v hv => Function.update_of_ne hv _ _⟩

/-- What every turn of a schedule keeps, the schedule keeps. -/
theorem follow_induct {P : List (Event Tid Call Ret) → Conf S W Tid Call Ret → Prop}
    (hf : ∀ w, fits w = true → F w) : ∀ (l : List (Tid × Turn Call)) {h s}, P h s →
      (∀ e ∈ l, ∀ h s d s', P h s → M.turn legal s e.1 e.2 = some (d, s') → F s'.world →
        P (d ++ h) s') →
      M.follow legal fits l h s = some (h', s') → P h' s' := by
  intro l
  induction l with
  | nil =>
    intro h s hs _ hrun
    obtain ⟨rfl, rfl⟩ := Prod.mk.inj (Option.some.inj hrun)
    exact hs
  | cons e l ih =>
    intro h s hs hstep hrun
    simp only [follow] at hrun
    split at hrun
    · next d s₁ he =>
      split at hrun
      · next hfit =>
        have hs₁ := hstep e List.mem_cons_self h s d s₁ hs he (hf _ hfit)
        exact ih hs₁ (fun e' he' => hstep e' (List.mem_cons_of_mem _ he')) hrun
      · cases hrun
    · cases hrun

theorem Runs.follow (hr : M.Runs F w0 h s) (hl : ∀ t c w, legal t c w = true → M.legal t c w)
    (hf : ∀ w, fits w = true → F w) (l : List (Tid × Turn Call))
    (hrun : M.follow legal fits l h s = some (h', s')) : M.Runs F w0 h' s' := by
  refine follow_induct hf l hr ?_ hrun
  intro e _ h s d s' hs he hfit
  obtain ⟨c, n, hpc, hc, rfl, rfl⟩ | ⟨c, a, hpc, rfl, rfl⟩ | ⟨c, o, k, r, w', hpc, hex, rfl, rfl⟩ :=
    turn_cases hl he
  · exact hs.call e.1 c n hpc hc hfit
  · exact hs.ret e.1 c a hpc hfit
  · exact hs.exec e.1 c o k r w' hpc hex hfit

/-- A thread that has no turn stays where it is. -/
theorem follow_other (hl : ∀ t c w, legal t c w = true → M.legal t c w) {v : Tid}
    (l : List (Tid × Turn Call)) (hv : ∀ e ∈ l, v ≠ e.1)
    (hrun : M.follow legal fits l h s = some (h', s')) : s'.pc v = s.pc v :=
  follow_induct (F := fun _ => True) (P := fun _ s' => s'.pc v = s.pc v) (fun _ _ => trivial) l rfl
    (fun e he _ _ _ _ hs hturn _ => ((turn_step hl hturn).2 v (hv e he)).trans hs) hrun

end

end System

namespace Onlookers

variable {O : Onlookers T W Tid σ Act α} {M : System S W Tid Call Ret} {legal : Tid → Call → W → Bool}
  {fits : W → Bool} {F : W → Prop} {w0 w : W} {t : Tid} {c : Act} {n : Nat} {x : σ}
  {l : List (W × Answer T)} {s : Scene S T W Tid Call Ret σ Act α} {s' : Conf S W Tid Call Ret}

/-- The threads of the schedule are not among those that look on. -/
theorem Sees.follow {h h' : List (Event Tid Call Ret)} (hs : O.Sees M F w0 t c n x w l s)
    (hl : ∀ t c w, legal t c w = true → M.legal t c w) (hf : ∀ w, fits w = true → F w)
    (hpc : ∀ v, s.watch v ≠ none → s.conf.pc v = none) (moves : List (Tid × Turn Call))
    (hidle : ∀ e ∈ moves, s.watch e.1 = none)
    (hrun : M.follow legal fits moves h s.conf = some (h', s')) :
    O.Sees M F w0 t c n x w l ⟨s', s.watch⟩ ∧ ∀ v, s.watch v ≠ none → s'.pc v = none := by
  refine System.follow_induct (P := fun _ s' => O.Sees M F w0 t c n x w l ⟨s', s.watch⟩ ∧
    ∀ v, s.watch v ≠ none → s'.pc v = none) hf moves ⟨hs, hpc⟩ ?_ hrun
  rintro e he _ s₁ d s₂ ⟨hs₁, hpc₁⟩ hturn hfit
  obtain ⟨hstep, hother⟩ := System.turn_step hl hturn
  have hpc₂ : ∀ v, s.watch v ≠ none → s₂.pc v = none := by
    intro v hv
    have hne : v ≠ e.1 := by
      rintro rfl
      exact hv (hidle e he)
    rw [hother v hne]
    exact hpc₁ v hv
  exact ⟨hs₁.other (.conf s₂ hstep hpc₂) rfl hfit, hpc₂⟩

/-- The next `n` operations of thread `t`, which looks on, in the state `w`. -/
def peek (O : Onlookers T W Tid σ Act α) (t : Tid) (w : W) :
    Nat → List (W × Answer T) → Prog T α → σ → Option (List (W × Answer T) × Prog T α × σ)
  | 0, l, p, y => some (l, p, y)
  | _ + 1, _, .ret _, _ => none
  | n + 1, l, .step o k, y =>
    match O.look t o w y with
    | .ok (r, y') => O.peek t w n ((w, ⟨o, r⟩) :: l) (k r) y'
    | .error _ => none

theorem Sees.peek (i : Nat) : ∀ {l l' : List (W × Answer T)} {p q : Prog T α} {y y' : σ}
    {s : Scene S T W Tid Call Ret σ Act α}, O.Sees M F w0 t c n x w l s →
    s.watch t = some (c, p, y) → O.peek t s.conf.world i l p y = some (l', q, y') →
    O.Sees M F w0 t c n x w l' ⟨s.conf, Function.update s.watch t (some (c, q, y'))⟩ ∧
      ∀ e ∈ l', e ∈ l ∨ e.1 = s.conf.world := by
  induction i with
  | zero =>
    intro l l' p q y y' s hs hw hrun
    obtain ⟨rfl, h⟩ := Prod.mk.inj (Option.some.inj hrun)
    obtain ⟨rfl, rfl⟩ := Prod.mk.inj h
    rw [← hw, Function.update_eq_self]
    exact ⟨hs, fun e he => Or.inl he⟩
  | succ i ih =>
    intro l l' p q y y' s hs hw hrun
    cases p with
    | ret a => cases hrun
    | step o k =>
      simp only [Onlookers.peek] at hrun
      split at hrun
      · next r z hlook =>
        obtain ⟨hs', hl'⟩ := ih (hs.look o k y r z hw hlook) (Function.update_self ..) hrun
        rw [Function.update_idem] at hs'
        refine ⟨hs', fun e he => ?_⟩
        obtain he | he := hl' e he
        · obtain rfl | he := List.mem_cons.mp he
          · exact Or.inr rfl
          · exact Or.inl he
        · exact Or.inr he
      · cases hrun

end Onlookers

end Resume
