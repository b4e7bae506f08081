import Tobdd.Lib.Threads

/-!
# One system refines another

Two systems have the same threads, calls and results: a concrete one, whose programs take small
steps, and an abstract one, in which one operation does what several of those steps do together.
`abs` reads the abstract state off the concrete one.

`sim L p q Q w`: whatever the others do in between, a step of the concrete program `p` is matched
by steps of the abstract program `q`, mostly by none, so that `abs` reads off what `q` did; where
`p` does not answer, neither does `q`, unless `stops` tolerates it; and when `p` returns `a` and
`q'` is left of `q`, then `Q a q'` holds.

    Prog.expand: every operation of a program replaced by a program
    sim_of_wp: a program with a proof, where the state tells what has been matched so far
    Refinement.sound: a run of the concrete system is matched by a run of the abstract one with
      the same calls and returns, in the same order
-/

namespace Resume

variable {S T : Sig} {W V Tid Call Ret α β γ : Type}

/-! ## Runs and what is seen of them -/

/-- What the client of a system sees. -/
inductive Event (Tid Call Ret : Type) where
  | call (t : Tid) (c : Call)
  | ret (t : Tid) (c : Call) (a : Ret)
  deriving DecidableEq

/-- The configurations reached, with the calls and returns on the way, the latest first. -/
inductive System.Runs [DecidableEq Tid] (M : System S W Tid Call Ret) (fits : W → Prop) (w0 : W) :
    List (Event Tid Call Ret) → Conf S W Tid Call Ret → Prop
  | init : Runs M fits w0 [] ⟨w0, fun _ => none⟩
  | call {h : List (Event Tid Call Ret)} {s : Conf S W Tid Call Ret} :
      Runs M fits w0 h s → ∀ (t : Tid) (c : Call) (n : Nat), s.pc t = none →
      M.legal t c s.world → fits (M.enter t c s.world) →
      Runs M fits w0 (.call t c :: h)
        ⟨M.enter t c s.world, Function.update s.pc t (some (c, M.code t c n))⟩
  | exec {h : List (Event Tid Call Ret)} {s : Conf S W Tid Call Ret} :
      Runs M fits w0 h s → ∀ (t : Tid) (c : Call) (o : S.Op) (k : S.Res o → Prog S Ret)
      (r : S.Res o) (w' : W), s.pc t = some (c, .step o k) → M.exec t o s.world = .ok (r, w') →
      fits w' → Runs M fits w0 h ⟨w', Function.update s.pc t (some (c, k r))⟩
  | ret {h : List (Event Tid Call Ret)} {s : Conf S W Tid Call Ret} :
      Runs M fits w0 h s → ∀ (t : Tid) (c : Call) (a : Ret), s.pc t = some (c, .ret a) →
      fits (M.leave t c a s.world) →
      Runs M fits w0 (.ret t c a :: h) ⟨M.leave t c a s.world, Function.update s.pc t none⟩

section
variable [DecidableEq Tid] {M : System S W Tid Call Ret} {fits : W → Prop} {w0 : W}
  {s : Conf S W Tid Call Ret}

theorem System.Runs.reach {h : List (Event Tid Call Ret)} (hr : M.Runs fits w0 h s) :
    M.Reach fits w0 s := by
  induction hr with
  | init => exact .init
  | call _ t c n hpc hl hf ih => exact ih.call t c n hpc hl hf
  | exec _ t c o k r w' hpc hex hf ih => exact ih.exec t c o k r w' hpc hex hf
  | ret _ t c a hpc hf ih => exact ih.ret t c a hpc hf

theorem System.Reach.runs (hr : M.Reach fits w0 s) : ∃ h, M.Runs fits w0 h s := by
  induction hr with
  | init => exact ⟨[], .init⟩
  | step _ hstep hf ih =>
    obtain ⟨h, ih⟩ := ih
    cases hstep with
    | call t c n hpc hl => exact ⟨_, ih.call t c n hpc hl hf⟩
    | exec t c o k r w' hpc hex => exact ⟨_, ih.exec t c o k r w' hpc hex hf⟩
    | ret t c a hpc => exact ⟨_, ih.ret t c a hpc hf⟩

end

/-! ## Programs -/

/-- Every operation replaced by a program. -/
def Prog.expand (impl : (o : S.Op) → Prog T (S.Res o)) : Prog S α → Prog T α
  | .ret a => .ret a
  | .step o k => (impl o).bind fun r => (k r).expand impl

/-- Steps of one abstract program, all of whose states fit. -/
inductive Goes (exec : (o : T.Op) → V → Except Stop (T.Res o × V)) (fits : V → Prop) :
    Prog T β → V → Prog T β → V → Prop
  | refl (q : Prog T β) (v : V) : Goes exec fits q v q v
  | step {o : T.Op} {k : T.Res o → Prog T β} {v v' v'' : V} {r : T.Res o} {q : Prog T β} :
      exec o v = .ok (r, v') → fits v' → Goes exec fits (k r) v' q v'' →
      Goes exec fits (.step o k) v q v''

theorem Goes.one {exec : (o : T.Op) → V → Except Stop (T.Res o × V)} {fits : V → Prop} {o : T.Op}
    {k : T.Res o → Prog T β} {v v' : V} {r : T.Res o} (h : exec o v = .ok (r, v')) (hf : fits v') :
    Goes exec fits (.step o k) v (k r) v' :=
  .step h hf (.refl _ _)

/-- The logic in which one thread is matched: that of its concrete program, and how the abstract
program is run. -/
structure Match (S T : Sig) (W V : Type) where
  exec : (o : S.Op) → W → Except Stop (S.Res o × W)
  rely : W → W → Prop
  guar : W → W → Prop
  safe : S.Op → W → Prop
  stops : Stop → Prop
  fits : W → Prop
  abs : W → V
  does : (o : T.Op) → V → Except Stop (T.Res o × V)
  room : V → Prop

namespace Match

/-- What one concrete operation must do, taken in `w` when `q` is left of the abstract program. -/
def Does (L : Match S T W V) (o : S.Op) (q : Prog T β) (w : W)
    (P : S.Res o → Prog T β → W → Prop) : Prop :=
  L.safe o w ∧
  match L.exec o w with
  | .ok (r, w') => L.fits w' →
      L.guar w w' ∧ ∃ q', Goes L.does L.room q (L.abs w) q' (L.abs w') ∧ P r q' w'
  | .error e => L.stops e ∨ ∃ o' k', q = .step o' k' ∧ L.does o' (L.abs w) = .error e

variable {L : Match S T W V} {o : S.Op} {q : Prog T β} {w : W} {P P' : S.Res o → Prog T β → W → Prop}

theorem Does.mono (h : L.Does o q w P) (hP : ∀ r q' w', P r q' w' → P' r q' w') :
    L.Does o q w P' := by
  refine ⟨h.1, ?_⟩
  have h2 := h.2
  split at h2
  · next r w' _ =>
    intro hf
    obtain ⟨hg, q', hgo, hp⟩ := h2 hf
    exact ⟨hg, q', hgo, hP r q' w' hp⟩
  · exact h2

theorem Does.of_ok {w' : W} {r : S.Res o} (hs : L.safe o w) (he : L.exec o w = .ok (r, w'))
    (h : L.fits w' →
      L.guar w w' ∧ ∃ q', Goes L.does L.room q (L.abs w) q' (L.abs w') ∧ P r q' w') :
    L.Does o q w P := by
  refine ⟨hs, ?_⟩
  rw [he]
  exact h

theorem Does.ok {w' : W} {r : S.Res o} (h : L.Does o q w P) (he : L.exec o w = .ok (r, w'))
    (hf : L.fits w') :
    L.guar w w' ∧ ∃ q', Goes L.does L.room q (L.abs w) q' (L.abs w') ∧ P r q' w' := by
  have h2 := h.2
  rw [he] at h2
  exact h2 hf

theorem Does.of_error {e : Stop} (hs : L.safe o w) (he : L.exec o w = .error e)
    (h : L.stops e ∨ ∃ o' k', q = .step o' k' ∧ L.does o' (L.abs w) = .error e) : L.Does o q w P := by
  refine ⟨hs, ?_⟩
  rw [he]
  exact h

theorem Does.error {e : Stop} (h : L.Does o q w P) (he : L.exec o w = .error e) :
    L.stops e ∨ ∃ o' k', q = .step o' k' ∧ L.does o' (L.abs w) = .error e := by
  have h2 := h.2
  rw [he] at h2
  exact h2

/-- The logic of the inner interface. -/
def pull {S' : Sig} (e : Emb S' S) (L : Match S T W V) : Match S' T W V where
  exec o w :=
    match L.exec (e.op o) w with
    | .ok (r, w') => .ok (e.res o r, w')
    | .error x => .error x
  rely := L.rely
  guar := L.guar
  safe o := L.safe (e.op o)
  stops := L.stops
  fits := L.fits
  abs := L.abs
  does := L.does
  room := L.room

end Match

def sim (L : Match S T W V) : Prog S α → Prog T β → (α → Prog T β → W → Prop) → W → Prop
  | .ret a, q, Q, w => Q a q w
  | .step o k, q, Q, w => ∀ w', L.rely w w' → L.Does o q w' fun r q' w'' => sim L (k r) q' Q w''

section
variable {L : Match S T W V}

theorem sim_mono {p : Prog S α} {Q Q' : α → Prog T β → W → Prop}
    (hQ : ∀ a q w, Q a q w → Q' a q w) : ∀ {q w}, sim L p q Q w → sim L p q Q' w := by
  induction p with
  | ret a => exact fun h => hQ a _ _ h
  | step o k ih => exact fun h w' hr => (h w' hr).mono fun r q' w'' => ih r

theorem sim_bind {p : Prog S α} {f : α → Prog S γ} {Q : γ → Prog T β → W → Prop} :
    ∀ {q w}, sim L p q (fun a q w => sim L (f a) q Q w) w → sim L (p >>= f) q Q w := by
  induction p with
  | ret a => exact fun h => h
  | step o k ih => exact fun h w' hr => (h w' hr).mono fun r q' w'' => ih r

theorem sim_seq {p : Prog S α} {f : α → Prog S γ} {P : α → Prog T β → W → Prop}
    {Q : γ → Prog T β → W → Prop} {q : Prog T β} {w : W} (hp : sim L p q P w)
    (hf : ∀ a q w, P a q w → sim L (f a) q Q w) : sim L (p >>= f) q Q w :=
  sim_bind (sim_mono hf hp)

theorem sim_ite (c : Prop) [Decidable c] {p p' : Prog S α} {q : Prog T β}
    {Q : α → Prog T β → W → Prop} {w : W} (ht : c → sim L p q Q w) (he : ¬ c → sim L p' q Q w) :
    sim L (if c then p else p') q Q w := by
  split
  · next h => exact ht h
  · next h => exact he h

theorem sim_stable (htrans : ∀ w₁ w₂ w₃, L.rely w₁ w₂ → L.rely w₂ w₃ → L.rely w₁ w₃) {p : Prog S α}
    {q : Prog T β} {Q : α → Prog T β → W → Prop} (hQ : ∀ a q w w', Q a q w → L.rely w w' → Q a q w')
    {w w' : W} (h : sim L p q Q w) (hr : L.rely w w') : sim L p q Q w' := by
  cases p with
  | ret a => exact hQ a q w w' h hr
  | step o k => exact fun w'' hr' => h w'' (htrans _ _ _ hr hr')

theorem sim_lift {S' : Sig} {e : Emb S' S} {p : Prog S' α} {Q : α → Prog T β → W → Prop} :
    ∀ {q w}, sim (L.pull e) p q Q w → sim L (p.lift e) q Q w := by
  induction p with
  | ret a => exact fun h => h
  | step o k ih =>
    intro q w h w' hr
    have hd := h w' hr
    cases he : L.exec (e.op o) w' with
    | ok x =>
      refine .of_ok hd.1 he fun hf => ?_
      have he' : (L.pull e).exec o w' = .ok (e.res o x.1, x.2) := by simp only [Match.pull, he]
      obtain ⟨hg, q', hgo, hs⟩ := hd.ok he' hf
      exact ⟨hg, q', hgo, ih _ hs⟩
    | error x =>
      refine .of_error hd.1 he (hd.error ?_)
      simp only [Match.pull, he]

/-- A program that has a proof is matched when the state tells what has been matched so far: `J`
says so, the others keep it, and each step inside the guarantee can be followed. -/
theorem sim_of_wp {P : Logic S W} (hexec : L.exec = P.exec) (hrely : ∀ w w', L.rely w w' → P.rely w w')
    (hguar : ∀ w w', P.guar w w' → L.guar w w') (hsafe : ∀ o w, P.safe o w → L.safe o w)
    (hstops : ∀ e w, P.stops e w → L.stops e)
    (hfits : ∀ w, L.fits w → P.fits w) {J : Prog T β → W → Prop}
    (hstable : ∀ q w w', J q w → L.rely w w' → J q w')
    (hstep : ∀ q w w', J q w → P.guar w w' →
      ∃ q', Goes L.does L.room q (L.abs w) q' (L.abs w') ∧ J q' w')
    {p : Prog S α} {Q : α → W → Prop} :
    ∀ {q w}, wp P p Q w → J q w → sim L p q (fun a q w => Q a w ∧ J q w) w := by
  induction p with
  | ret a => exact fun hw hJ => ⟨hw, hJ⟩
  | step o k ih =>
    intro q w hw hJ w' hr
    obtain ⟨hs, hd⟩ := hw w' (hrely w w' hr)
    have hJ' := hstable q w w' hJ hr
    cases he : P.exec o w' with
    | ok x =>
      rw [he] at hd
      refine .of_ok (hsafe o w' hs) (hexec ▸ he) fun hf => ?_
      obtain ⟨hg, hk⟩ := hd (hfits _ hf)
      obtain ⟨q', hgo, hJ''⟩ := hstep q w' x.2 hJ' hg
      exact ⟨hguar w' x.2 hg, q', hgo, ih x.1 hk hJ''⟩
    | error e =>
      rw [he] at hd
      exact .of_error (hsafe o w' hs) (hexec ▸ he) (Or.inl (hstops e w' hd))

end

/-! ## Systems -/

variable [DecidableEq Tid]

/-- Why each run of `M` is one of `N`, seen from outside. -/
structure Refinement (M : System S W Tid Call Ret) (fits : W → Prop) (N : System T V Tid Call Ret)
    (room : V → Prop) where
  abs : W → V
  inv : W → Prop
  rely : Tid → W → W → Prop
  guar : Tid → W → W → Prop
  safe : Tid → S.Op → W → Prop
  stops : Stop → Prop
  idle : Tid → W → Prop
  post : Tid → Call → Ret → Prog T Ret → W → Prop
  rely_refl : ∀ t w, inv w → rely t w w
  rely_trans : ∀ t w₁ w₂ w₃, rely t w₁ w₂ → rely t w₂ w₃ → rely t w₁ w₃
  guar_inv : ∀ t w w', inv w → guar t w w' → inv w'
  guar_rely : ∀ t u w w', inv w → guar t w w' → t ≠ u → rely u w w'
  idle_stable : ∀ t w w', idle t w → rely t w w' → idle t w'
  post_stable : ∀ t c a q w w', post t c a q w → rely t w w' → post t c a q w'
  call : ∀ t c n w, inv w → idle t w → M.legal t c w → fits (M.enter t c w) →
    guar t w (M.enter t c w) ∧ N.legal t c (abs w) ∧ abs (M.enter t c w) = N.enter t c (abs w) ∧
      room (abs (M.enter t c w)) ∧
      ∃ n', sim ⟨M.exec t, rely t, guar t, safe t, stops, fits, abs, N.exec t, room⟩ (M.code t c n)
        (N.code t c n') (post t c) (M.enter t c w)
  leave : ∀ t c a q w, inv w → post t c a q w → fits (M.leave t c a w) →
    guar t w (M.leave t c a w) ∧ idle t (M.leave t c a w) ∧
      Goes (N.exec t) room q (abs w) (.ret a) (abs w) ∧
      abs (M.leave t c a w) = N.leave t c a (abs w) ∧ room (abs (M.leave t c a w))

namespace Refinement

variable {M : System S W Tid Call Ret} {fits : W → Prop} {N : System T V Tid Call Ret}
  {room : V → Prop}

/-- How thread `t` is matched. -/
def logic (R : Refinement M fits N room) (t : Tid) : Match S T W V :=
  ⟨M.exec t, R.rely t, R.guar t, R.safe t, R.stops, fits, R.abs, N.exec t, room⟩

/-- The two program points of thread `t`. -/
inductive At (R : Refinement M fits N room) (t : Tid) (w : W) :
    Option (Call × Prog S Ret) → Option (Call × Prog T Ret) → Prop
  | outside : R.idle t w → At R t w none none
  | inside {c : Call} {p : Prog S Ret} {q : Prog T Ret} :
      sim (R.logic t) p q (R.post t c) w → At R t w (some (c, p)) (some (c, q))

/-- Two configurations that match. -/
structure Joined (R : Refinement M fits N room) (s : Conf S W Tid Call Ret)
    (s' : Conf T V Tid Call Ret) : Prop where
  inv : R.inv s.world
  world : s'.world = R.abs s.world
  pc : ∀ t, R.At t s.world (s.pc t) (s'.pc t)

variable {R : Refinement M fits N room}

omit [DecidableEq Tid] in
theorem At.stable {t : Tid} {w w' : W} {pc : Option (Call × Prog S Ret)}
    {pc' : Option (Call × Prog T Ret)} (h : R.At t w pc pc') (hr : R.rely t w w') :
    R.At t w' pc pc' := by
  cases h with
  | outside hi => exact .outside (R.idle_stable t w w' hi hr)
  | inside hs => exact .inside (sim_stable (R.rely_trans t) (R.post_stable t _) hs hr)

/-- Thread `t` has taken a step, and the abstract thread `t` its own. -/
theorem Joined.moved {s : Conf S W Tid Call Ret} {s' : Conf T V Tid Call Ret} (h : R.Joined s s')
    (t : Tid) {w : W} {pc : Option (Call × Prog S Ret)} {pc' : Option (Call × Prog T Ret)}
    (hg : R.guar t s.world w) (ht : R.At t w pc pc') :
    R.Joined ⟨w, Function.update s.pc t pc⟩ ⟨R.abs w, Function.update s'.pc t pc'⟩ := by
  refine ⟨R.guar_inv t _ _ h.inv hg, rfl, fun u => ?_⟩
  show R.At u w (Function.update s.pc t pc u) (Function.update s'.pc t pc' u)
  by_cases hu : u = t
  · subst hu
    rw [Function.update_self, Function.update_self]
    exact ht
  · rw [Function.update_of_ne hu, Function.update_of_ne hu]
    exact (h.pc u).stable (R.guar_rely t u _ _ h.inv hg (Ne.symm hu))

/-- The steps of one abstract thread are steps of the abstract system. -/
theorem goes_runs {v0 : V} {h : List (Event Tid Call Ret)} {t : Tid} {c : Call} {q q' : Prog T Ret}
    {v v' : V} (hgo : Goes (N.exec t) room q v q' v') : ∀ {s' : Conf T V Tid Call Ret},
      N.Runs room v0 h s' → s'.world = v → s'.pc t = some (c, q) →
      N.Runs room v0 h ⟨v', Function.update s'.pc t (some (c, q'))⟩ := by
  induction hgo with
  | refl q v =>
    rintro s' hs rfl hpc
    rw [← hpc, Function.update_eq_self]
    exact hs
  | step hex hf _ ih =>
    rintro s' hs rfl hpc
    have hnext := ih (hs.exec t c _ _ _ _ hpc hex hf) rfl (Function.update_self ..)
    rwa [Function.update_idem] at hnext

/-- **Soundness.**  Every run is matched, call by call and return by return. -/
theorem sound (R : Refinement M fits N room) {w0 : W} (h0 : R.inv w0) (hidle : ∀ t, R.idle t w0)
    {h : List (Event Tid Call Ret)} {s : Conf S W Tid Call Ret} (hs : M.Runs fits w0 h s) :
    ∃ s', N.Runs room (R.abs w0) h s' ∧ R.Joined s s' := by
  induction hs with
  | init => exact ⟨_, .init, h0, rfl, fun t => .outside (hidle t)⟩
  | @call h s _ t c n hpc hl hf ih =>
    obtain ⟨s', hs', hj⟩ := ih
    have ht := hj.pc t
    rw [hpc] at ht
    generalize hpc' : s'.pc t = pc' at ht
    cases ht with
    | outside hi =>
      obtain ⟨hg, hl', habs, hroom, n', hsim⟩ := R.call t c n _ hj.inv hi hl hf
      rw [← hj.world] at hl' habs
      rw [habs] at hroom
      refine ⟨_, hs'.call t c n' hpc' hl' hroom, ?_⟩
      rw [← habs]
      exact hj.moved t hg (.inside hsim)
  | @exec h s _ t c o k r w' hpc hex hf ih =>
    obtain ⟨s', hs', hj⟩ := ih
    have ht := hj.pc t
    rw [hpc] at ht
    generalize hpc' : s'.pc t = pc' at ht
    cases ht with
    | inside hsim =>
      obtain ⟨hg, q', hgo, hk⟩ := (hsim _ (R.rely_refl t _ hj.inv)).ok hex hf
      exact ⟨_, goes_runs hgo hs' hj.world hpc', hj.moved t hg (.inside hk)⟩
  | @ret h s _ t c a hpc hf ih =>
    obtain ⟨s', hs', hj⟩ := ih
    have ht := hj.pc t
    rw [hpc] at ht
    generalize hpc' : s'.pc t = pc' at ht
    cases ht with
    | inside hpost =>
      obtain ⟨hg, hi, hgo, habs, hroom⟩ := R.leave t c a _ _ hj.inv hpost hf
      have hend := goes_runs hgo hs' hj.world hpc'
      rw [habs] at hroom
      refine ⟨_, hend.ret t c a (Function.update_self ..) hroom, ?_⟩
      rw [Function.update_idem, ← habs]
      exact hj.moved t hg (.outside hi)

omit [DecidableEq Tid] in
/-- An operation that a concrete thread is about to take is safe, and one that it cannot take its
abstract thread cannot take either. -/
theorem Joined.does {s : Conf S W Tid Call Ret} {s' : Conf T V Tid Call Ret} (h : R.Joined s s')
    {t : Tid} {c : Call} {o : S.Op} {k : S.Res o → Prog S Ret} (hpc : s.pc t = some (c, .step o k)) :
    R.safe t o s.world ∧ ∀ e, M.exec t o s.world = .error e →
      R.stops e ∨ ∃ o' k', s'.pc t = some (c, .step o' k') ∧ N.exec t o' s'.world = .error e := by
  have ht := h.pc t
  rw [hpc] at ht
  generalize hpc' : s'.pc t = pc' at ht
  cases ht with
  | inside hsim =>
    have hd := hsim _ (R.rely_refl t _ h.inv)
    refine ⟨hd.1, fun e hex => ?_⟩
    rcases hd.error hex with hs | ⟨o', k', rfl, he⟩
    · exact Or.inl hs
    · refine Or.inr ⟨o', k', rfl, ?_⟩
      rw [h.world]
      exact he

omit [DecidableEq Tid] in
theorem Joined.returned {s : Conf S W Tid Call Ret} {s' : Conf T V Tid Call Ret} (h : R.Joined s s')
    {t : Tid} {c : Call} {a : Ret} (hpc : s.pc t = some (c, .ret a)) :
    ∃ q, s'.pc t = some (c, q) ∧ R.post t c a q s.world := by
  have ht := h.pc t
  rw [hpc] at ht
  generalize hpc' : s'.pc t = pc' at ht
  cases ht with
  | inside hpost => exact ⟨_, rfl, hpost⟩

end Refinement

end Resume
