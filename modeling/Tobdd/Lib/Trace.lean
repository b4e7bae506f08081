import Tobdd.Lib.Threads

/-!
# What has happened since a call

`M.Within fits w0 t c n l s`: a run has led to the configuration `s`, in which thread `t` is
inside the call `c`, and `l` are the operations that the threads have taken since it made this
call, each with its answer, the latest first.

`plays J p Q h`: whatever the program `p` is answered, each of its operations satisfies `J` of
the answers before it.  `Took p h q`: when the operations of `p` were answered as in `h`, `q` is
left of it.

    Within.plays: a thread inside a call goes on to play the program of the call
    Within.knows: what is known of a thread that has come so far in the first part of its program
    Within.holds: what entering the call establishes and every step keeps
-/

namespace Resume

variable {S : Sig} {W Tid Call Ret α β : Type}

/-- An operation and its answer. -/
abbrev Answer (S : Sig) : Type := Σ o : S.Op, S.Res o

/-! ## Whatever a program is answered -/

def plays (J : List (Answer S) → S.Op → Prop) :
    Prog S α → (α → List (Answer S) → Prop) → List (Answer S) → Prop
  | .ret a, Q, h => Q a h
  | .step o k, Q, h => J h o ∧ ∀ r, plays J (k r) Q (⟨o, r⟩ :: h)

section
variable {J : List (Answer S) → S.Op → Prop}

theorem plays_mono {p : Prog S α} {Q Q' : α → List (Answer S) → Prop}
    (hQ : ∀ a h, Q a h → Q' a h) : ∀ {h}, plays J p Q h → plays J p Q' h := by
  induction p with
  | ret a => exact hQ a _
  | step o k ih => exact fun hp => ⟨hp.1, fun r => ih r (hp.2 r)⟩

theorem plays_bind {p : Prog S α} {f : α → Prog S β} {Q : β → List (Answer S) → Prop} :
    ∀ {h}, plays J p (fun a h => plays J (f a) Q h) h → plays J (p >>= f) Q h := by
  induction p with
  | ret a => exact fun hp => hp
  | step o k ih => exact fun hp => ⟨hp.1, fun r => ih r (hp.2 r)⟩

theorem plays_seq {p : Prog S α} {f : α → Prog S β} {P : α → List (Answer S) → Prop}
    {Q : β → List (Answer S) → Prop} {h : List (Answer S)} (hp : plays J p P h)
    (hf : ∀ a h, P a h → plays J (f a) Q h) : plays J (p >>= f) Q h :=
  plays_bind (plays_mono hf hp)

theorem plays_ite (c : Prop) [Decidable c] {p q : Prog S α} {Q : α → List (Answer S) → Prop}
    {h : List (Answer S)} (ht : c → plays J p Q h) (he : ¬ c → plays J q Q h) :
    plays J (if c then p else q) Q h := by
  split
  · next hc => exact ht hc
  · next hc => exact he hc

end

/-- What is left of a program. -/
inductive Took : Prog S α → List (Answer S) → Prog S α → Prop
  | start (p : Prog S α) : Took p [] p
  | step {p : Prog S α} {h : List (Answer S)} {o : S.Op} {k : S.Res o → Prog S α} (r : S.Res o) :
      Took p h (.step o k) → Took p (⟨o, r⟩ :: h) (k r)

namespace Took

variable {p q q' : Prog S α} {h : List (Answer S)}

theorem bind (hq : Took p h q) (f : α → Prog S β) : Took (p >>= f) h (q >>= f) := by
  induction hq with
  | start => exact .start _
  | step r _ ih => exact .step r ih

/-- Answers that lead somewhere lead nowhere else. -/
theorem unique (hq : Took p h q) (hq' : Took p h q') : q' = q := by
  induction hq generalizing q' with
  | start =>
    cases hq' with
    | start => rfl
  | step r _ ih =>
    cases hq' with
    | step _ hq' =>
      injection ih hq' with _ hk
      rw [hk]

theorem trans {h' : List (Answer S)} (hq : Took p h q) (hq' : Took q h' q') : Took p (h' ++ h) q' := by
  induction hq' with
  | start => exact hq
  | step r _ ih => exact .step r ih

theorem plays {J : List (Answer S) → S.Op → Prop} {Q : α → List (Answer S) → Prop}
    (hq : Took p h q) (hp : Resume.plays J p Q []) : Resume.plays J q Q h := by
  induction hq with
  | start => exact hp
  | step r _ ih => exact ih.2 r

end Took

/-! ## Inside a call -/

variable [DecidableEq Tid]

/-- The operations of thread `t`. -/
def own (t : Tid) (l : List (Tid × Answer S)) : List (Answer S) :=
  (l.filter fun e => e.1 = t).map Prod.snd

theorem own_self (t : Tid) (a : Answer S) (l : List (Tid × Answer S)) :
    own t ((t, a) :: l) = a :: own t l := by
  simp [own]

theorem own_other {t u : Tid} (h : u ≠ t) (a : Answer S) (l : List (Tid × Answer S)) :
    own t ((u, a) :: l) = own t l := by
  simp [own, h]

theorem own_append (t : Tid) (l l' : List (Tid × Answer S)) : own t (l ++ l') = own t l ++ own t l' := by
  simp [own]

theorem own_mine (t : Tid) (h : List (Answer S)) : own t (h.map (Prod.mk t)) = h := by
  induction h with
  | nil => rfl
  | cons a h ih => rw [List.map_cons, own_self, ih]

theorem own_foreign {t u : Tid} (hu : u ≠ t) (h : List (Answer S)) : own t (h.map (Prod.mk u)) = [] := by
  induction h with
  | nil => rfl
  | cons a h ih => rw [List.map_cons, own_other hu, ih]

inductive System.Within (M : System S W Tid Call Ret) (fits : W → Prop) (w0 : W) (t : Tid)
    (c : Call) (n : Nat) : List (Tid × Answer S) → Conf S W Tid Call Ret → Prop
  | enter {s : Conf S W Tid Call Ret} : M.Reach fits w0 s → s.pc t = none →
      M.legal t c s.world → fits (M.enter t c s.world) →
      Within M fits w0 t c n []
        ⟨M.enter t c s.world, Function.update s.pc t (some (c, M.code t c n))⟩
  | exec {l : List (Tid × Answer S)} {s : Conf S W Tid Call Ret} :
      Within M fits w0 t c n l s → ∀ (u : Tid) (c' : Call) (o : S.Op) (k : S.Res o → Prog S Ret)
      (r : S.Res o) (w' : W), s.pc u = some (c', .step o k) →
      M.exec u o s.world = .ok (r, w') → fits w' →
      Within M fits w0 t c n ((u, ⟨o, r⟩) :: l) ⟨w', Function.update s.pc u (some (c', k r))⟩
  | call {l : List (Tid × Answer S)} {s : Conf S W Tid Call Ret} :
      Within M fits w0 t c n l s → ∀ (u : Tid) (c' : Call) (n' : Nat), s.pc u = none →
      M.legal u c' s.world → fits (M.enter u c' s.world) →
      Within M fits w0 t c n l
        ⟨M.enter u c' s.world, Function.update s.pc u (some (c', M.code u c' n'))⟩
  | ret {l : List (Tid × Answer S)} {s : Conf S W Tid Call Ret} :
      Within M fits w0 t c n l s → ∀ (u : Tid) (c' : Call) (a : Ret), u ≠ t →
      s.pc u = some (c', .ret a) →
      fits (M.leave u c' a s.world) →
      Within M fits w0 t c n l ⟨M.leave u c' a s.world, Function.update s.pc u none⟩

namespace System.Within

variable {M : System S W Tid Call Ret} {fits : W → Prop} {w0 : W} {t : Tid} {c : Call} {n : Nat}
  {l : List (Tid × Answer S)} {s : Conf S W Tid Call Ret}

theorem reach (h : M.Within fits w0 t c n l s) : M.Reach fits w0 s := by
  induction h with
  | enter hr hpc hl hf => exact hr.call t c n hpc hl hf
  | exec _ u c' o k r w' hpc hex hf ih => exact ih.exec u c' o k r w' hpc hex hf
  | call _ u c' n' hpc hl hf ih => exact ih.call u c' n' hpc hl hf
  | ret _ u c' a _ hpc hf ih => exact ih.ret u c' a hpc hf

/-- A thread may take the first part of its program without the others, through states that fit. -/
theorem part (u : Tid) (c' : Call) (f : α → Prog S Ret) (a : α) : ∀ (p : Prog S α)
    {l : List (Tid × Answer S)} {s : Conf S W Tid Call Ret} (w' : W), M.Within fits w0 t c n l s →
    s.pc u = some (c', p >>= f) → run (M.exec u) p s.world = .ok (a, w') →
    Along (M.exec u) (fun _ => fits) p s.world → fits w' → ∃ h, Took p h (.ret a) ∧
      M.Within fits w0 t c n (h.map (Prod.mk u) ++ l) ⟨w', Function.update s.pc u (some (c', f a))⟩ := by
  intro p
  induction p with
  | ret b =>
    intro l s w' h hpc hrun _ _
    obtain ⟨rfl, rfl⟩ := Prod.mk.inj (Except.ok.inj hrun)
    have hpc : s.pc u = some (c', f b) := hpc
    refine ⟨[], .start _, ?_⟩
    rw [← hpc, Function.update_eq_self]
    exact h
  | step o k ih =>
    intro l s w' h hpc hrun hal hfit
    cases he : M.exec u o s.world with
    | error e =>
      rw [run_step_error he] at hrun
      cases hrun
    | ok x =>
      have hex : M.exec u o s.world = .ok (x.1, x.2) := he
      rw [run_step_ok hex] at hrun
      have hal' := ((along_step hex).mp hal).2
      have hnext := h.exec u c' o _ x.1 x.2 hpc he (hal'.start hrun hfit)
      obtain ⟨h', htook, hin⟩ := ih x.1 w' hnext (Function.update_self ..) hrun hal' hfit
      refine ⟨h' ++ [⟨o, x.1⟩], (Took.step x.1 (.start _)).trans htook, ?_⟩
      rw [Function.update_idem] at hin
      rw [List.map_append, List.append_assoc]
      exact hin

/-- A whole call of another thread. -/
theorem whole (h : M.Within fits w0 t c n l s) {u : Tid} (hu : u ≠ t) (c' : Call) (n' : Nat) (a : Ret)
    (w' : W) (hpc : s.pc u = none) (hl : M.legal u c' s.world)
    (hrun : run (M.exec u) (M.code u c' n') (M.enter u c' s.world) = .ok (a, w'))
    (hal : Along (M.exec u) (fun _ => fits) (M.code u c' n') (M.enter u c' s.world)) (hfit : fits w')
    (hleave : fits (M.leave u c' a w')) :
    ∃ l', own t l' = own t l ∧ M.Within fits w0 t c n l' ⟨M.leave u c' a w', s.pc⟩ := by
  have hcall := h.call u c' n' hpc hl (hal.start hrun hfit)
  have hcode : Function.update s.pc u (some (c', M.code u c' n')) u =
      some (c', M.code u c' n' >>= Prog.ret) :=
    (Function.update_self ..).trans (congrArg (fun p => some (c', p)) (Prog.bind_ret _).symm)
  obtain ⟨h', -, hin⟩ := part u c' .ret a _ w' hcall hcode hrun hal hfit
  have hback := hin.ret u c' a hu (Function.update_self ..) hleave
  rw [Function.update_idem, Function.update_idem, ← hpc, Function.update_eq_self] at hback
  refine ⟨_, ?_, hback⟩
  rw [own_append, own_foreign hu]
  rfl

/-- What is left of its program. -/
theorem took (h : M.Within fits w0 t c n l s) :
    ∃ p, s.pc t = some (c, p) ∧ Took (M.code t c n) (own t l) p := by
  induction h with
  | enter _ _ _ _ => exact ⟨_, Function.update_self .., .start _⟩
  | @exec l s _ u c' o k r w' hpc _ _ ih =>
    obtain ⟨p, hp, htook⟩ := ih
    by_cases hu : u = t
    · subst hu
      obtain ⟨rfl, rfl⟩ := Prod.mk.inj (Option.some.inj (hpc.symm.trans hp))
      refine ⟨k r, Function.update_self .., ?_⟩
      rw [own_self]
      exact htook.step r
    · refine ⟨p, ?_, ?_⟩
      · exact (Function.update_of_ne (Ne.symm hu) ..).trans hp
      · rw [own_other hu]
        exact htook
  | @call l s _ u c' n' hpc _ _ ih =>
    obtain ⟨p, hp, htook⟩ := ih
    have hu : t ≠ u := by
      rintro rfl
      rw [hpc] at hp
      cases hp
    exact ⟨p, (Function.update_of_ne hu ..).trans hp, htook⟩
  | @ret l s _ u c' a hu _ _ ih =>
    obtain ⟨p, hp, htook⟩ := ih
    exact ⟨p, (Function.update_of_ne (Ne.symm hu) ..).trans hp, htook⟩

/-- **The thread plays its program.** -/
theorem plays {J : List (Answer S) → S.Op → Prop} {Q : Ret → List (Answer S) → Prop}
    (hcode : Resume.plays J (M.code t c n) Q []) (h : M.Within fits w0 t c n l s) :
    ∃ p, s.pc t = some (c, p) ∧ Resume.plays J p Q (own t l) := by
  obtain ⟨p, hpc, hp⟩ := h.took
  exact ⟨p, hpc, hp.plays hcode⟩

/-- **What is known of a thread** that has come so far in `p`, when it is verified that `p` leads
to what the others do not disturb. -/
theorem knows (P : Proof M fits) (h0 : P.inv w0) (hidle : ∀ t, P.idle t w0) {α : Type}
    {p : Prog S α} {Q : α → W → Prop} (hQ : ∀ a w w', Q a w → P.rely t w w' → Q a w')
    (hp : ∀ w, P.inv w → P.idle t w → M.legal t c w → fits (M.enter t c w) →
      wp (P.logic t) p Q (M.enter t c w))
    (h : M.Within fits w0 t c n l s) {q : Prog S α} (hq : Took p (own t l) q) :
    wp (P.logic t) q Q s.world := by
  induction h generalizing q with
  | @enter s hr hpc hl hf =>
    obtain ⟨hinv, hat⟩ := P.sound h0 hidle hr
    have ht := hat t
    rw [hpc] at ht
    cases hq with
    | start => exact hp s.world hinv ht hl hf
  | @exec l s hw u c' o k r w' hpc hex hf ih =>
    obtain ⟨hinv, hat⟩ := P.sound h0 hidle hw.reach
    have hex' : (P.logic u).exec o s.world = .ok (r, w') := hex
    by_cases hu : u = t
    · subst hu
      rw [own_self] at hq
      cases hq with
      | step _ hq =>
        have hd := (ih hq s.world (P.rely_refl u _ hinv)).2
        rw [hex'] at hd
        exact (hd hf).2
    · rw [own_other hu] at hq
      have ht := hat u
      rw [hpc] at ht
      have hd := (ht.does hinv).2
      rw [hex'] at hd
      exact wp_stable (P.rely_trans t) hQ (ih hq) (P.guar_rely u t _ _ hinv (hd hf).1 hu)
  | @call l s hw u c' n' hpc hl hf ih =>
    obtain ⟨hinv, hat⟩ := P.sound h0 hidle hw.reach
    have ht := hat u
    rw [hpc] at ht
    have hu : u ≠ t := by
      rintro rfl
      obtain ⟨p, hp, -⟩ := hw.took
      rw [hpc] at hp
      cases hp
    have hg := (P.call u c' n' s.world hinv ht hl hf).1
    exact wp_stable (P.rely_trans t) hQ (ih hq) (P.guar_rely u t _ _ hinv hg hu)
  | @ret l s hw u c' a hu hpc hf ih =>
    obtain ⟨hinv, hat⟩ := P.sound h0 hidle hw.reach
    have ht := hat u
    rw [hpc] at ht
    have hg := (P.leave u c' a s.world hinv ht hf).1
    exact wp_stable (P.rely_trans t) hQ (ih hq) (P.guar_rely u t _ _ hinv hg hu)

/-- **What every step keeps.**  The operations of all threads are among those in `A`, and those of
`t` are as it plays. -/
theorem holds (P : Proof M fits) (h0 : P.inv w0) (hidle : ∀ t, P.idle t w0)
    {A : S.Op → Prop} (hA : ∀ u c n, (M.code u c n).Only A)
    {J : List (Answer S) → S.Op → Prop} {Q : Ret → List (Answer S) → Prop}
    (hcode : Resume.plays J (M.code t c n) Q []) {K : List (Tid × Answer S) → W → Prop}
    (henter : ∀ w, P.inv w → M.legal t c w → P.guar t w (M.enter t c w) → K [] (M.enter t c w))
    (hexec : ∀ l w u o r w', K l w → P.inv w → P.guar u w w' → M.exec u o w = .ok (r, w') → A o →
      (u = t → J (own t l) o) → K ((u, ⟨o, r⟩) :: l) w')
    (hcall : ∀ l w u c', u ≠ t → K l w → P.inv w → M.legal u c' w →
      P.guar u w (M.enter u c' w) → K l (M.enter u c' w))
    (hret : ∀ l w u c' a, u ≠ t → K l w → P.inv w → P.guar u w (M.leave u c' a w) →
      K l (M.leave u c' a w))
    (h : M.Within fits w0 t c n l s) : K l s.world := by
  induction h with
  | @enter s hr hpc hl hf =>
    obtain ⟨hinv, hat⟩ := P.sound h0 hidle hr
    have ht := hat t
    rw [hpc] at ht
    exact henter s.world hinv hl (P.call t c n s.world hinv ht hl hf).1
  | @exec l s hw u c' o k r w' hpc hex hf ih =>
    obtain ⟨hinv, hat⟩ := P.sound h0 hidle hw.reach
    have hu := hat u
    rw [hpc] at hu
    have hd := (hu.does hinv).2
    have hex' : (P.logic u).exec o s.world = .ok (r, w') := hex
    rw [hex'] at hd
    have honly : Prog.Only A (.step o k) := hw.reach.code (G := fun _ p => p.Only A) hA
      (fun _ _ _ r hp => hp.2 r) hpc
    refine hexec l s.world u o r w' ih hinv (hd hf).1 hex honly.1 ?_
    rintro rfl
    obtain ⟨p, hp, hplay⟩ := hw.plays hcode
    obtain ⟨-, rfl⟩ := Prod.mk.inj (Option.some.inj (hpc.symm.trans hp))
    exact hplay.1
  | @call l s hw u c' n' hpc hl hf ih =>
    obtain ⟨hinv, hat⟩ := P.sound h0 hidle hw.reach
    have hu := hat u
    rw [hpc] at hu
    refine hcall l s.world u c' ?_ ih hinv hl (P.call u c' n' s.world hinv hu hl hf).1
    rintro rfl
    obtain ⟨p, hp, -⟩ := hw.plays hcode
    rw [hpc] at hp
    cases hp
  | @ret l s hw u c' a hne hpc hf ih =>
    obtain ⟨hinv, hat⟩ := P.sound h0 hidle hw.reach
    have hu := hat u
    rw [hpc] at hu
    exact hret l s.world u c' a hne ih hinv (P.leave u c' a s.world hinv hu hf).1

end System.Within

end Resume
