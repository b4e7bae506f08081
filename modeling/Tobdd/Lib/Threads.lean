import Mathlib.Logic.Function.Basic
import Mathlib.Logic.Relation
import Tobdd.Lib.Prog

/-!
# Threads that run programs over one shared state

A `System` says which calls there are, which program each of them runs, when a client
may make it, and what bookkeeping a call and a return do.  A configuration is the
shared state and, for each thread, nothing (the thread is outside every call) or the
call it is in and what is left of its program.  A step is one call, one atomic
operation or one return of one thread; every order of such steps is a run.

A `Proof` gives each thread a rely and a guarantee.  `Proof.sound`: in every
configuration that a run reaches the invariant holds, every thread outside a call
satisfies `idle`, and the rest of every running program satisfies its `wp`.
-/

namespace Resume

/-- `code t c n` is the program of call `c`; `n` bounds how often its loops go round. -/
structure System (S : Sig) (W Tid Call Ret : Type) where
  exec : Tid → (o : S.Op) → W → Except Stop (S.Res o × W)
  code : Tid → Call → Nat → Prog S Ret
  legal : Tid → Call → W → Prop
  enter : Tid → Call → W → W
  leave : Tid → Call → Ret → W → W

structure Conf (S : Sig) (W Tid Call Ret : Type) where
  world : W
  pc : Tid → Option (Call × Prog S Ret)

variable {S : Sig} {W Tid Call Ret : Type} [DecidableEq Tid]

inductive System.Step (M : System S W Tid Call Ret) :
    Conf S W Tid Call Ret → Conf S W Tid Call Ret → Prop
  | call {s : Conf S W Tid Call Ret} (t : Tid) (c : Call) (fuel : Nat) :
      s.pc t = none → M.legal t c s.world →
      Step M s ⟨M.enter t c s.world, Function.update s.pc t (some (c, M.code t c fuel))⟩
  | exec {s : Conf S W Tid Call Ret} (t : Tid) (c : Call) (o : S.Op) (k : S.Res o → Prog S Ret)
      (r : S.Res o) (w' : W) :
      s.pc t = some (c, .step o k) → M.exec t o s.world = .ok (r, w') →
      Step M s ⟨w', Function.update s.pc t (some (c, k r))⟩
  | ret {s : Conf S W Tid Call Ret} (t : Tid) (c : Call) (a : Ret) :
      s.pc t = some (c, .ret a) →
      Step M s ⟨M.leave t c a s.world, Function.update s.pc t none⟩

/-- The configurations reached by a run from `w0`, with no thread inside a call, all of
whose states fit (counters within their words, say). -/
inductive System.Reach (M : System S W Tid Call Ret) (fits : W → Prop) (w0 : W) :
    Conf S W Tid Call Ret → Prop
  | init : Reach M fits w0 ⟨w0, fun _ => none⟩
  | step {s s' : Conf S W Tid Call Ret} : Reach M fits w0 s → M.Step s s' → fits s'.world →
      Reach M fits w0 s'

section
variable {M : System S W Tid Call Ret} {fits : W → Prop} {w0 : W} {s : Conf S W Tid Call Ret}

theorem System.Reach.call (h : M.Reach fits w0 s) (t : Tid) (c : Call) (n : Nat)
    (hpc : s.pc t = none) (hl : M.legal t c s.world) (hf : fits (M.enter t c s.world)) :
    M.Reach fits w0
      ⟨M.enter t c s.world, Function.update s.pc t (some (c, M.code t c n))⟩ :=
  h.step (.call t c n hpc hl) hf

theorem System.Reach.exec (h : M.Reach fits w0 s) (t : Tid) (c : Call) (o : S.Op)
    (k : S.Res o → Prog S Ret) (r : S.Res o) (w' : W) (hpc : s.pc t = some (c, .step o k))
    (hex : M.exec t o s.world = .ok (r, w')) (hf : fits w') :
    M.Reach fits w0 ⟨w', Function.update s.pc t (some (c, k r))⟩ :=
  h.step (.exec t c o k r w' hpc hex) hf

theorem System.Reach.ret (h : M.Reach fits w0 s) (t : Tid) (c : Call) (a : Ret)
    (hpc : s.pc t = some (c, .ret a)) (hf : fits (M.leave t c a s.world)) :
    M.Reach fits w0 ⟨M.leave t c a s.world, Function.update s.pc t none⟩ :=
  h.step (.ret t c a hpc) hf

/-- Where thread `u` is, once thread `t` has taken a step to `x`. -/
theorem update_cases {β : Type} {pc : Tid → Option β} {t u : Tid} {x : Option β} {y : β}
    (h : Function.update pc t x u = some y) : u = t ∧ x = some y ∨ u ≠ t ∧ pc u = some y := by
  by_cases hu : u = t
  · subst hu
    rw [Function.update_self] at h
    exact Or.inl ⟨rfl, h⟩
  · rw [Function.update_of_ne hu] at h
    exact Or.inr ⟨hu, h⟩

/-- What is true of the code of every call, and goes on to be true as the code is run. -/
theorem System.Reach.code (h : M.Reach fits w0 s) {G : Call → Prog S Ret → Prop}
    (hcode : ∀ t c n, G c (M.code t c n)) (hstep : ∀ c o k r, G c (.step o k) → G c (k r)) {t : Tid}
    {c : Call} {p : Prog S Ret} (hpc : s.pc t = some (c, p)) : G c p := by
  induction h generalizing t c p with
  | init => cases hpc
  | @step s s' _ hs _ ih =>
    -- the thread that took the step, and another one
    have hother : ∀ {u : Tid} {q : Option (Call × Prog S Ret)}, s'.pc = Function.update s.pc u q →
        (∀ c' p', q = some (c', p') → G c' p') → G c p := by
      intro u q he hq
      rw [he] at hpc
      rcases update_cases hpc with ⟨-, hpc⟩ | ⟨-, hpc⟩
      · exact hq c p hpc
      · exact ih hpc
    cases hs with
    | call u c' fuel =>
      refine hother rfl fun c'' p' he => ?_
      obtain ⟨rfl, rfl⟩ := Prod.mk.inj (Option.some.inj he)
      exact hcode u c' fuel
    | exec u c' o k r w' hu =>
      refine hother rfl fun c'' p' he => ?_
      obtain ⟨rfl, rfl⟩ := Prod.mk.inj (Option.some.inj he)
      exact hstep c' o k r (ih hu)
    | ret u c' a => exact hother rfl fun c'' p' he => by cases he

/-- A thread may take the first part of its program without the others, where every state is
considered. -/
theorem System.Reach.part {α : Type} (h : M.Reach fits w0 s) (hfit : ∀ w, fits w) (t : Tid) (c : Call)
    (f : α → Prog S Ret) (a : α) : ∀ (p : Prog S α) (w' : W), s.pc t = some (c, p >>= f) →
      run (M.exec t) p s.world = .ok (a, w') →
      M.Reach fits w0 ⟨w', Function.update s.pc t (some (c, f a))⟩ := by
  intro p
  induction p generalizing s with
  | ret b =>
    intro w' hpc hrun
    obtain ⟨rfl, rfl⟩ := Prod.mk.inj (Except.ok.inj hrun)
    have hpc : s.pc t = some (c, f b) := hpc
    rw [← hpc, Function.update_eq_self]
    exact h
  | step o k ih =>
    intro w' hpc hrun
    cases he : M.exec t o s.world with
    | error e =>
      rw [run_step_error he] at hrun
      cases hrun
    | ok x =>
      have hex : M.exec t o s.world = .ok (x.1, x.2) := he
      rw [run_step_ok hex] at hrun
      have hnext := ih x.1 (h.exec t c o _ x.1 x.2 hpc he (hfit x.2)) w'
        (Function.update_self ..) hrun
      rwa [Function.update_idem] at hnext

/-- A whole call of one thread. -/
theorem System.Reach.whole (h : M.Reach fits w0 s) (hfit : ∀ w, fits w) (t : Tid) (c : Call) (n : Nat)
    (a : Ret) (w' : W) (hpc : s.pc t = none) (hl : M.legal t c s.world)
    (hrun : run (M.exec t) (M.code t c n) (M.enter t c s.world) = .ok (a, w')) :
    M.Reach fits w0 ⟨M.leave t c a w', s.pc⟩ := by
  have hcall := h.call t c n hpc hl (hfit _)
  have hret := hcall.part hfit t c .ret a _ w'
    ((Function.update_self ..).trans (congrArg (fun p => some (c, p)) (Prog.bind_ret _).symm)) hrun
  have hback := hret.ret t c a (Function.update_self ..) (hfit _)
  rw [Function.update_idem, Function.update_idem, ← hpc, Function.update_eq_self] at hback
  exact hback

end

/-- A rely-guarantee proof of a system. -/
structure Proof (M : System S W Tid Call Ret) (fits : W → Prop) where
  inv : W → Prop
  rely : Tid → W → W → Prop
  guar : Tid → W → W → Prop
  safe : Tid → S.Op → W → Prop
  idle : Tid → W → Prop
  post : Tid → Call → Ret → W → Prop
  rely_refl : ∀ t w, inv w → rely t w w
  rely_trans : ∀ t w1 w2 w3, rely t w1 w2 → rely t w2 w3 → rely t w1 w3
  guar_inv : ∀ t w w', inv w → guar t w w' → inv w'
  guar_rely : ∀ t u w w', inv w → guar t w w' → t ≠ u → rely u w w'
  idle_stable : ∀ t w w', idle t w → rely t w w' → idle t w'
  post_stable : ∀ t c a w w', post t c a w → rely t w w' → post t c a w'
  call : ∀ t c n w, inv w → idle t w → M.legal t c w → fits (M.enter t c w) →
    guar t w (M.enter t c w) ∧
      wp ⟨M.exec t, rely t, guar t, safe t, fun e _ => e ≠ .fault, fits⟩ (M.code t c n) (post t c)
        (M.enter t c w)
  leave : ∀ t c a w, inv w → post t c a w → fits (M.leave t c a w) →
    guar t w (M.leave t c a w) ∧ idle t (M.leave t c a w)

namespace Proof

variable {M : System S W Tid Call Ret} {fits : W → Prop}

/-- The logic thread `t` is verified in. -/
def logic (P : Proof M fits) (t : Tid) : Logic S W :=
  ⟨M.exec t, P.rely t, P.guar t, P.safe t, fun e _ => e ≠ .fault, fits⟩

/-- What is known about thread `t` at its program point. -/
def At (P : Proof M fits) (t : Tid) (pc : Option (Call × Prog S Ret)) (w : W) : Prop :=
  match pc with
  | none => P.idle t w
  | some (c, p) => wp (P.logic t) p (P.post t c) w

omit [DecidableEq Tid] in
theorem At.stable {P : Proof M fits} {t : Tid} {pc : Option (Call × Prog S Ret)} {w w' : W}
    (h : P.At t pc w) (hr : P.rely t w w') : P.At t pc w' := by
  match pc, h with
  | none, h => exact P.idle_stable t w w' h hr
  | some (c, _), h => exact wp_stable (P.rely_trans t) (P.post_stable t c) h hr

omit [DecidableEq Tid] in
/-- An operation that thread `t` is about to take is safe, and answers as proved. -/
theorem At.does {P : Proof M fits} {t : Tid} {c : Call} {o : S.Op} {k : S.Res o → Prog S Ret}
    {w : W} (h : P.At t (some (c, .step o k)) w) (hinv : P.inv w) :
    (P.logic t).Does o w fun r w' => wp (P.logic t) (k r) (P.post t c) w' :=
  h w (P.rely_refl t w hinv)

/-- A step is a step of one thread, inside its guarantee. -/
theorem step_guar (P : Proof M fits) {s s' : Conf S W Tid Call Ret} (hinv : P.inv s.world)
    (hat : ∀ t, P.At t (s.pc t) s.world) (hstep : M.Step s s') (hfit : fits s'.world) :
    ∃ t pc', P.guar t s.world s'.world ∧ s'.pc = Function.update s.pc t pc' ∧
      P.At t pc' s'.world := by
  cases hstep with
  | call t c fuel hpc hlegal =>
    have ht := hat t
    rw [hpc] at ht
    obtain ⟨hg, hwp⟩ := P.call t c fuel _ hinv ht hlegal hfit
    exact ⟨t, _, hg, rfl, hwp⟩
  | exec t c o k r w' hpc hex =>
    have ht := hat t
    rw [hpc] at ht
    have hd := (ht.does hinv).2
    have hex' : (P.logic t).exec o _ = .ok (r, w') := hex
    rw [hex'] at hd
    exact ⟨t, _, (hd hfit).1, rfl, (hd hfit).2⟩
  | ret t c a hpc =>
    have ht := hat t
    rw [hpc] at ht
    obtain ⟨hg, hi⟩ := P.leave t c a _ hinv ht hfit
    exact ⟨t, _, hg, rfl, hi⟩

/-- What a thread that stays outside every call may rely on. -/
theorem step_rely (P : Proof M fits) {s s' : Conf S W Tid Call Ret} {t : Tid} (hinv : P.inv s.world)
    (hat : ∀ t, P.At t (s.pc t) s.world) (hstep : M.Step s s') (hfit : fits s'.world)
    (hpc : s.pc t = none) (hpc' : s'.pc t = none) : P.rely t s.world s'.world := by
  have hother : ∀ {u : Tid} {cp : Call × Prog S Ret}, s.pc u = some cp → u ≠ t := by
    rintro u cp hu rfl
    cases hu.symm.trans hpc
  cases hstep with
  | call u c fuel hu hlegal =>
    have ht := hat u
    rw [hu] at ht
    refine P.guar_rely u t _ _ hinv (P.call u c fuel _ hinv ht hlegal hfit).1 ?_
    rintro rfl
    cases (Function.update_self ..).symm.trans hpc'
  | exec u c o k r w' hu hex =>
    have ht := hat u
    rw [hu] at ht
    have hd := (ht.does hinv).2
    have hex' : (P.logic u).exec o _ = .ok (r, w') := hex
    rw [hex'] at hd
    exact P.guar_rely u t _ _ hinv (hd hfit).1 (hother hu)
  | ret u c a hu =>
    have ht := hat u
    rw [hu] at ht
    exact P.guar_rely u t _ _ hinv (P.leave u c a _ hinv ht hfit).1 (hother hu)

/-- **Soundness.**  The invariant holds in every configuration reached, and every thread
is where its proof says. -/
theorem sound (P : Proof M fits) {w0 : W} (h0 : P.inv w0) (hidle : ∀ t, P.idle t w0)
    {s : Conf S W Tid Call Ret} (hs : M.Reach fits w0 s) :
    P.inv s.world ∧ ∀ t, P.At t (s.pc t) s.world := by
  induction hs with
  | init => exact ⟨h0, hidle⟩
  | @step s s' _ hstep hfit ih =>
    obtain ⟨hinv, hat⟩ := ih
    obtain ⟨t, pc', hg, hpc, ht⟩ := P.step_guar hinv hat hstep hfit
    refine ⟨P.guar_inv t _ _ hinv hg, fun u => ?_⟩
    rw [hpc]
    by_cases hu : u = t
    · subst hu
      rwa [Function.update_self]
    · rw [Function.update_of_ne hu]
      exact (hat u).stable (P.guar_rely t u _ _ hinv hg (Ne.symm hu))

/-- What every step does, a run does. -/
theorem runs (P : Proof M fits) {w0 : W} (h0 : P.inv w0) (hidle : ∀ t, P.idle t w0)
    {R : W → W → Prop} (hrefl : ∀ w, R w w) (htrans : ∀ a b c, R a b → R b c → R a c)
    (hR : ∀ t w w', P.inv w → P.guar t w w' → R w w') {s s' : Conf S W Tid Call Ret}
    (hs : M.Reach fits w0 s)
    (hrun : Relation.ReflTransGen (fun a b => M.Step a b ∧ fits b.world) s s') :
    M.Reach fits w0 s' ∧ R s.world s'.world := by
  induction hrun with
  | refl => exact ⟨hs, hrefl _⟩
  | @tail a b _ hstep ih =>
    obtain ⟨ha, hr⟩ := ih
    obtain ⟨hinv, hat⟩ := P.sound h0 hidle ha
    obtain ⟨t, _, hg, -⟩ := P.step_guar hinv hat hstep.1 hstep.2
    exact ⟨ha.step hstep.1 hstep.2, htrans _ _ _ hr (hR t _ _ hinv hg)⟩

/-- What every step does may be relied on. -/
def also (P : Proof M fits) (R : W → W → Prop) (hrefl : ∀ w, R w w)
    (htrans : ∀ a b c, R a b → R b c → R a c) (hR : ∀ t w w', P.inv w → P.guar t w w' → R w w') :
    Proof M fits where
  inv := P.inv
  rely t w w' := P.rely t w w' ∧ R w w'
  guar := P.guar
  safe := P.safe
  idle := P.idle
  post := P.post
  rely_refl t w h := ⟨P.rely_refl t w h, hrefl w⟩
  rely_trans t w1 w2 w3 h1 h2 := ⟨P.rely_trans t w1 w2 w3 h1.1 h2.1, htrans _ _ _ h1.2 h2.2⟩
  guar_inv := P.guar_inv
  guar_rely t u w w' hi hg hne := ⟨P.guar_rely t u w w' hi hg hne, hR t w w' hi hg⟩
  idle_stable t w w' h hr := P.idle_stable t w w' h hr.1
  post_stable t c a w w' h hr := P.post_stable t c a w w' h hr.1
  call t c n w hi hidle hl hf := by
    obtain ⟨hg, hwp⟩ := P.call t c n w hi hidle hl hf
    exact ⟨hg, wp_weaken (L := P.logic t)
      (M := { P.logic t with rely := fun w w' => P.rely t w w' ∧ R w w' }) rfl
      (fun _ _ h => h.1) (fun _ _ h => h) (fun _ _ h => h) (fun _ _ h => h) (fun _ h => h) hwp⟩
  leave := P.leave

end Proof

end Resume
