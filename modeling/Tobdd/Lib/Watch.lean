import Tobdd.Lib.Trace

/-!
# Threads that look on

Next to the calls of a `System`, a thread outside every call may run a program that looks at the
shared state and changes a state of its own only.  `O.Sees M fits w0 t c n x w l s`: a run has led
to the scene `s`, in which thread `t` runs the program of `c`, which it began in the state `w` and
with `x` as its own, and `l` are the operations it has taken since, each with the state it was
taken in and its answer, the latest first.

`p.Asks J A`: as long as `p` is answered as in `J`, its operations are among those in `A`.

    Sees.conf: those who look on are not noticed
    Sees.keeps: what a thread that looks on sees stays so, when it may rely on that
    Sees.wp: what it is proved to do against what it may rely on, it does
    Sees.asks: what it asks, and in which states
    Sees.alone: a thread that is answered as it would be alone has come as far as it would alone
-/

namespace Resume

variable {S T : Sig} {W Tid Call Ret σ Act α β : Type}

/-! ## Programs that are answered in one way -/

def Prog.Asks (J : (o : S.Op) → S.Res o → Prop) (A : S.Op → Prop) : Prog S α → Prop
  | .ret _ => True
  | .step o k => A o ∧ ∀ r, J o r → (k r).Asks J A

section
variable {J : (o : S.Op) → S.Res o → Prop} {A : S.Op → Prop}

theorem Prog.Asks.bind {p : Prog S α} {f : α → Prog S β} (hp : p.Asks J A)
    (hf : ∀ a, (f a).Asks J A) : (p >>= f).Asks J A := by
  induction p with
  | ret a => exact hf a
  | step o k ih => exact ⟨hp.1, fun r hr => ih r (hp.2 r hr)⟩

theorem Prog.Asks.ite {p q : Prog S α} (c : Prop) [Decidable c] (hp : c → p.Asks J A)
    (hq : ¬ c → q.Asks J A) : (if c then p else q).Asks J A := by
  split
  · next h => exact hp h
  · next h => exact hq h

theorem Prog.Only.asks {p : Prog S α} (hp : p.Only A) : p.Asks J A := by
  induction p with
  | ret a => trivial
  | step o k ih => exact ⟨hp.1, fun r _ => ih r (hp.2 r)⟩

end

/-! ## The scene -/

/-- `look` answers an operation, in the shared state and in the thread's own. -/
structure Onlookers (T : Sig) (W Tid σ Act α : Type) where
  look : Tid → (o : T.Op) → W → σ → Except Stop (T.Res o × σ)
  code : Tid → Act → Nat → Prog T α
  legal : Tid → Act → W → Prop

/-- The threads in their calls, and those that look on. -/
structure Scene (S T : Sig) (W Tid Call Ret σ Act α : Type) where
  conf : Conf S W Tid Call Ret
  watch : Tid → Option (Act × Prog T α × σ)

variable [DecidableEq Tid]

namespace Onlookers

inductive Step (O : Onlookers T W Tid σ Act α) (M : System S W Tid Call Ret) :
    Scene S T W Tid Call Ret σ Act α → Scene S T W Tid Call Ret σ Act α → Prop
  | conf {s : Scene S T W Tid Call Ret σ Act α} (s' : Conf S W Tid Call Ret) :
      M.Step s.conf s' → (∀ t, s.watch t ≠ none → s'.pc t = none) → Step O M s ⟨s', s.watch⟩
  | start {s : Scene S T W Tid Call Ret σ Act α} (t : Tid) (c : Act) (fuel : Nat) (x : σ) :
      s.conf.pc t = none → s.watch t = none → O.legal t c s.conf.world →
      Step O M s ⟨s.conf, Function.update s.watch t (some (c, O.code t c fuel, x))⟩
  | look {s : Scene S T W Tid Call Ret σ Act α} (t : Tid) (c : Act) (o : T.Op)
      (k : T.Res o → Prog T α) (x : σ) (r : T.Res o) (x' : σ) :
      s.watch t = some (c, .step o k, x) → O.look t o s.conf.world x = .ok (r, x') →
      Step O M s ⟨s.conf, Function.update s.watch t (some (c, k r, x'))⟩
  | stop {s : Scene S T W Tid Call Ret σ Act α} (t : Tid) (c : Act) (a : α) (x : σ) :
      s.watch t = some (c, .ret a, x) → Step O M s ⟨s.conf, Function.update s.watch t none⟩

inductive Reach (O : Onlookers T W Tid σ Act α) (M : System S W Tid Call Ret) (fits : W → Prop)
    (w0 : W) : Scene S T W Tid Call Ret σ Act α → Prop
  | init : Reach O M fits w0 ⟨⟨w0, fun _ => none⟩, fun _ => none⟩
  | step {s s' : Scene S T W Tid Call Ret σ Act α} : Reach O M fits w0 s → O.Step M s s' →
      fits s'.conf.world → Reach O M fits w0 s'

inductive Sees (O : Onlookers T W Tid σ Act α) (M : System S W Tid Call Ret) (fits : W → Prop)
    (w0 : W) (t : Tid) (c : Act) (n : Nat) (x : σ) :
    W → List (W × Answer T) → Scene S T W Tid Call Ret σ Act α → Prop
  | start {s : Scene S T W Tid Call Ret σ Act α} : O.Reach M fits w0 s → s.conf.pc t = none →
      s.watch t = none → O.legal t c s.conf.world →
      Sees O M fits w0 t c n x s.conf.world []
        ⟨s.conf, Function.update s.watch t (some (c, O.code t c n, x))⟩
  | look {w : W} {l : List (W × Answer T)} {s : Scene S T W Tid Call Ret σ Act α} :
      Sees O M fits w0 t c n x w l s → ∀ (o : T.Op) (k : T.Res o → Prog T α) (y : σ) (r : T.Res o)
      (y' : σ), s.watch t = some (c, .step o k, y) → O.look t o s.conf.world y = .ok (r, y') →
      Sees O M fits w0 t c n x w ((s.conf.world, ⟨o, r⟩) :: l)
        ⟨s.conf, Function.update s.watch t (some (c, k r, y'))⟩
  | other {w : W} {l : List (W × Answer T)} {s s' : Scene S T W Tid Call Ret σ Act α} :
      Sees O M fits w0 t c n x w l s → O.Step M s s' → s'.watch t = s.watch t →
      fits s'.conf.world → Sees O M fits w0 t c n x w l s'

variable {O : Onlookers T W Tid σ Act α} {M : System S W Tid Call Ret} {fits : W → Prop} {w0 w : W}
  {t : Tid} {c : Act} {n : Nat} {x : σ} {l : List (W × Answer T)}
  {s s' : Scene S T W Tid Call Ret σ Act α}

theorem Step.conf_eq (h : O.Step M s s') :
    (M.Step s.conf s'.conf ∧ ∀ t, s.watch t ≠ none → s'.conf.pc t = none) ∨ s'.conf = s.conf := by
  cases h with
  | conf s' hs hw => exact Or.inl ⟨hs, hw⟩
  | start t c fuel x hpc hw hl => exact Or.inr rfl
  | look t c o k x r x' hw hex => exact Or.inr rfl
  | stop t c a x hw => exact Or.inr rfl

theorem Reach.conf (h : O.Reach M fits w0 s) : M.Reach fits w0 s.conf := by
  induction h with
  | init => exact .init
  | step _ hstep hfit ih =>
    rcases hstep.conf_eq with ⟨hs, -⟩ | hs
    · exact ih.step hs hfit
    · rw [hs]
      exact ih

/-- **Those who look on are not noticed.** -/
theorem Sees.conf (h : O.Sees M fits w0 t c n x w l s) :
    M.Reach fits w0 s.conf ∧ s.conf.pc t = none ∧ ∃ q y, s.watch t = some (c, q, y) := by
  induction h with
  | start hr hpc hw hl => exact ⟨hr.conf, hpc, _, _, Function.update_self ..⟩
  | look _ o k y r y' hw hex ih => exact ⟨ih.1, ih.2.1, _, _, Function.update_self ..⟩
  | other _ hstep hsame hfit ih =>
    obtain ⟨hr, hpc, q, y, hw⟩ := ih
    refine ⟨?_, ?_, q, y, hsame.trans hw⟩
    · rcases hstep.conf_eq with ⟨hs, -⟩ | hs
      · exact hr.step hs hfit
      · rw [hs]
        exact hr
    · rcases hstep.conf_eq with ⟨-, hs⟩ | hs
      · refine hs t ?_
        rw [hw]
        exact Option.some_ne_none _
      · rw [hs]
        exact hpc

/-- **What a thread sees stays so**, when it may rely on that. -/
theorem Sees.keeps (P : Proof M fits) (h0 : P.inv w0) (hidle : ∀ t, P.idle t w0) {V : W → W → Prop}
    (hstart : ∀ s : Conf S W Tid Call Ret, M.Reach fits w0 s → O.legal t c s.world →
      V s.world s.world)
    (hV : ∀ w w₁ w₂, V w w₁ → P.rely t w₁ w₂ → V w w₂) (h : O.Sees M fits w0 t c n x w l s) :
    V w s.conf.world := by
  induction h with
  | start hr hpc hw hl => exact hstart _ hr.conf hl
  | look _ o k y r y' hw hex ih => exact ih
  | @other w l s s' hs hstep hsame hfit ih =>
    obtain ⟨hr, hpc, q, y, hw⟩ := hs.conf
    rcases hstep.conf_eq with ⟨hs', hpc'⟩ | hs'
    · obtain ⟨hinv, hat⟩ := P.sound h0 hidle hr
      have hpc' := hpc' t (by rw [hw]; exact Option.some_ne_none _)
      exact hV w _ _ ih (P.step_rely hinv hat hs' hfit hpc hpc')
    · rw [hs']
      exact ih

/-- The logic of a thread that looks on: the others change the shared state, it does not. -/
def logic (O : Onlookers T W Tid σ Act α) (rely : W → W → Prop) (stops : Stop → Prop) (t : Tid) :
    Logic T (W × σ) where
  exec o x := (O.look t o x.1 x.2).map fun r => (r.1, x.1, r.2)
  rely x x' := rely x.1 x'.1 ∧ x'.2 = x.2
  guar _ _ := True
  safe _ _ := True
  stops e _ := stops e
  fits _ := True

/-- **What a thread that looks on is proved to do**, it does in every run. -/
theorem Sees.wp (P : Proof M fits) (h0 : P.inv w0) (hidle : ∀ t, P.idle t w0) {stops : Stop → Prop}
    {Q : α → W × σ → Prop} (hQ : ∀ a w w' y, Q a (w, y) → P.rely t w w' → Q a (w', y))
    (hstart : ∀ s : Conf S W Tid Call Ret, M.Reach fits w0 s → O.legal t c s.world →
      Resume.wp (O.logic (P.rely t) stops t) (O.code t c n) Q (s.world, x))
    (h : O.Sees M fits w0 t c n x w l s) : ∃ q y, s.watch t = some (c, q, y) ∧
      Resume.wp (O.logic (P.rely t) stops t) q Q (s.conf.world, y) := by
  induction h with
  | start hr hpc hw hl => exact ⟨_, _, Function.update_self .., hstart _ hr.conf hl⟩
  | @look w l s hs o k y r y' hw hex ih =>
    obtain ⟨q, z, hq, hwp⟩ := ih
    obtain ⟨-, hq⟩ := Prod.mk.inj (Option.some.inj (hw.symm.trans hq))
    obtain ⟨rfl, rfl⟩ := Prod.mk.inj hq
    refine ⟨_, _, Function.update_self .., ?_⟩
    obtain ⟨hinv, -⟩ := P.sound h0 hidle hs.conf.1
    have hdoes := (hwp (s.conf.world, y) ⟨P.rely_refl t _ hinv, rfl⟩).2
    simp only [logic, hex] at hdoes
    exact (hdoes trivial).2
  | @other w l s s' hs hstep hsame hfit ih =>
    obtain ⟨q, y, hq, hwp⟩ := ih
    refine ⟨q, y, hsame.trans hq, ?_⟩
    obtain ⟨hr, hpc, -⟩ := hs.conf
    rcases hstep.conf_eq with ⟨hs', hpc'⟩ | hs'
    · obtain ⟨hinv, hat⟩ := P.sound h0 hidle hr
      have hpc' := hpc' t (by rw [hq]; exact Option.some_ne_none _)
      have hrely := P.step_rely hinv hat hs' hfit hpc hpc'
      refine wp_stable (L := O.logic (P.rely t) stops t) ?_ ?_ hwp ⟨hrely, rfl⟩
      · exact fun a b c h1 h2 => ⟨P.rely_trans t _ _ _ h1.1 h2.1, h2.2.trans h1.2⟩
      · rintro a ⟨w₁, y₁⟩ ⟨w₂, y₂⟩ hq ⟨h1, rfl⟩
        exact hQ a w₁ w₂ y₂ hq h1
    · rw [hs']
      exact hwp

/-- A run in which nobody looks on. -/
theorem Reach.unwatched {s : Conf S W Tid Call Ret} (h : M.Reach fits w0 s) :
    O.Reach M fits w0 ⟨s, fun _ => none⟩ := by
  induction h with
  | init => exact .init
  | step _ hstep hfit ih => exact ih.step (.conf _ hstep fun t ht => absurd rfl ht) hfit

/-- A thread may take the first part of its program without the others. -/
theorem Sees.part (f : β → Prog T α) (b : β) : ∀ (p : Prog T β) {l : List (W × Answer T)}
    {s : Scene S T W Tid Call Ret σ Act α} {y : σ} (y' : σ), O.Sees M fits w0 t c n x w l s →
    s.watch t = some (c, p >>= f, y) → run (fun o => O.look t o s.conf.world) p y = .ok (b, y') →
    ∃ l', O.Sees M fits w0 t c n x w (l' ++ l)
      ⟨s.conf, Function.update s.watch t (some (c, f b, y'))⟩ ∧ ∀ e ∈ l', e.1 = s.conf.world := by
  intro p
  induction p with
  | ret d =>
    intro l s y y' h hw hrun
    obtain ⟨rfl, rfl⟩ := Prod.mk.inj (Except.ok.inj hrun)
    have hw : s.watch t = some (c, f d, y) := hw
    refine ⟨[], ?_, fun e he => by cases he⟩
    rw [← hw, Function.update_eq_self]
    exact h
  | step o k ih =>
    intro l s y y' h hw hrun
    cases he : O.look t o s.conf.world y with
    | error e =>
      rw [run_step_error he] at hrun
      cases hrun
    | ok z =>
      have hex : O.look t o s.conf.world y = .ok (z.1, z.2) := he
      have hrun : run (fun o => O.look t o s.conf.world) (k z.1 : Prog T β) z.2 = .ok (b, y') :=
        (run_step_ok hex).symm.trans hrun
      obtain ⟨l', hs, hall⟩ := ih z.1 y' (h.look o _ y z.1 z.2 hw hex) (Function.update_self ..) hrun
      refine ⟨l' ++ [(s.conf.world, ⟨o, z.1⟩)], ?_, fun e he => ?_⟩
      · rw [Function.update_idem] at hs
        rw [List.append_assoc]
        exact hs
      · rcases List.mem_append.mp he with he | he
        · exact hall e he
        · rw [List.mem_singleton.mp he]

/-- What a thread asks, as long as the answers are as in `J`. -/
theorem Sees.asks {J : (o : T.Op) → T.Res o → Prop} {A : T.Op → Prop} {V : W → Prop}
    (hcode : (O.code t c n).Asks J A) (hV : ∀ l s, O.Sees M fits w0 t c n x w l s → V s.conf.world)
    (hlook : ∀ o y r y' w, A o → V w → O.look t o w y = .ok (r, y') → J o r)
    (h : O.Sees M fits w0 t c n x w l s) :
    (∃ q y, s.watch t = some (c, q, y) ∧ q.Asks J A) ∧
    ∀ e ∈ l, A e.2.1 ∧ V e.1 ∧ ∃ y y', O.look t e.2.1 e.1 y = .ok (e.2.2, y') := by
  induction h with
  | start hr hpc hw hl =>
    refine ⟨⟨_, _, Function.update_self .., hcode⟩, ?_⟩
    intro e he
    cases he
  | @look w l s hs o k y r y' hw hex ih =>
    obtain ⟨⟨q, z, hq, hasks⟩, hall⟩ := ih hV
    obtain ⟨-, hq⟩ := Prod.mk.inj (Option.some.inj (hw.symm.trans hq))
    obtain ⟨rfl, rfl⟩ := Prod.mk.inj hq
    have hv := hV l s hs
    refine ⟨⟨_, _, Function.update_self .., hasks.2 r (hlook o y r y' _ hasks.1 hv hex)⟩, ?_⟩
    intro e he
    rcases List.mem_cons.mp he with rfl | he
    · exact ⟨hasks.1, hv, y, y', hex⟩
    · exact hall e he
  | other _ hstep hsame hfit ih =>
    obtain ⟨⟨q, y, hq, hasks⟩, hall⟩ := ih hV
    exact ⟨⟨q, y, hsame.trans hq, hasks⟩, hall⟩

/-- **Alone.**  A thread that is answered as it would be alone has come as far as it would alone. -/
theorem Sees.alone (look : (o : T.Op) → σ → Except Stop (T.Res o × σ))
    (h : O.Sees M fits w0 t c n x w l s)
    (hlook : ∀ e ∈ l, ∀ y y', O.look t e.2.1 e.1 y = .ok (e.2.2, y') →
      look e.2.1 y = .ok (e.2.2, y')) :
    ∃ q y, s.watch t = some (c, q, y) ∧ run look q y = run look (O.code t c n) x := by
  induction h with
  | start hr hpc hw hl => exact ⟨_, _, Function.update_self .., rfl⟩
  | @look w l s hs o k y r y' hw hex ih =>
    obtain ⟨q, z, hq, hrun⟩ := ih fun e he => hlook e (List.mem_cons_of_mem _ he)
    obtain ⟨-, hq⟩ := Prod.mk.inj (Option.some.inj (hw.symm.trans hq))
    obtain ⟨rfl, rfl⟩ := Prod.mk.inj hq
    refine ⟨_, _, Function.update_self .., ?_⟩
    rw [← hrun, run_step_ok (hlook _ (List.mem_cons_self ..) y y' hex)]
  | other _ hstep hsame hfit ih =>
    obtain ⟨q, y, hq, hrun⟩ := ih hlook
    exact ⟨q, y, hsame.trans hq, hrun⟩

end Onlookers

end Resume
