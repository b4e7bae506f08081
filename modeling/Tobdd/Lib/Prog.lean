import Mathlib.Logic.Basic
import Mathlib.Tactic.Common

/-!
# Programs as trees of atomic operations

`Prog S α` is a program over the interface `S`: it either has returned a value or
takes one atomic operation and goes on with the answer.  The same program has two
readings.  `run` executes it alone, on a state.  `wp` says what it does when other
parties may change the state between any two of its operations: `rely` is what they
may do, `guar` what each own operation does, `safe` what is checked before each own
operation, `stops` which ways of not answering are tolerated, and `fits` which states
are considered at all (a run that leaves them is not followed further).

    wp L (p >>= f) Q w ↔ wp L p (fun a w => wp L (f a) Q w) w               (wp_bind)
    wp (Logic.alone exec guar stops) p Q w → run exec p w returns with Q, or stops   (wp_run)
-/

namespace Resume

/-- An interface: the atomic operations, and the type each of them answers with. -/
structure Sig where
  Op : Type
  Res : Op → Type

/-- Why an operation does not answer. -/
inductive Stop where
  /-- the program panics -/
  | panic
  /-- the operation cannot be taken in this state: its party waits -/
  | spin
  /-- an access to memory that is not allocated -/
  | fault
  deriving DecidableEq, Repr

inductive Prog (S : Sig) (α : Type) where
  | ret (a : α)
  | step (o : S.Op) (k : S.Res o → Prog S α)

variable {S T : Sig} {W α β σ : Type}

namespace Prog

def bind : Prog S α → (α → Prog S β) → Prog S β
  | ret a, f => f a
  | step o k, f => step o fun r => (k r).bind f

instance : Monad (Prog S) where
  pure := ret
  bind := bind

/-- One operation. -/
def op (o : S.Op) : Prog S (S.Res o) := step o ret

/-- `for i in i..i + n`, threading a local value. -/
def forFrom (body : Nat → σ → Prog S σ) : Nat → Nat → σ → Prog S σ
  | _, 0, s => ret s
  | i, n + 1, s => (body i s).bind (forFrom body (i + 1) n)

/-- `for i in 0..n`, threading a local value. -/
def forRange (n : Nat) (body : Nat → σ → Prog S σ) (s : σ) : Prog S σ :=
  forFrom body 0 n s

/-- `for x in xs`, threading a local value. -/
def forEach (body : α → σ → Prog S σ) : List α → σ → Prog S σ
  | [], s => ret s
  | x :: xs, s => (body x s).bind (forEach body xs)

end Prog

theorem Prog.bind_ret (p : Prog S α) : p >>= Prog.ret = p := by
  induction p with
  | ret a => rfl
  | step o k ih => exact congrArg (Prog.step o) (funext fun r => ih r)

theorem Prog.bind_assoc {γ : Type} (p : Prog S α) (f : α → Prog S β) (g : β → Prog S γ) :
    (p.bind f).bind g = p.bind fun a => (f a).bind g := by
  induction p with
  | ret a => rfl
  | step o k ih => exact congrArg (Prog.step o) (funext ih)

/-! ## Running alone -/

def run (exec : (o : S.Op) → W → Except Stop (S.Res o × W)) : Prog S α → W → Except Stop (α × W)
  | .ret a, w => .ok (a, w)
  | .step o k, w =>
    match exec o w with
    | .ok (r, w') => run exec (k r) w'
    | .error e => .error e

theorem run_step_ok {exec : (o : S.Op) → W → Except Stop (S.Res o × W)} {o : S.Op}
    {k : S.Res o → Prog S α} {w w' : W} {r : S.Res o} (h : exec o w = .ok (r, w')) :
    run exec (.step o k) w = run exec (k r) w' := by
  simp only [run, h]

/-- A program of one operation ends where the operation does. -/
theorem run_op_eq {exec : (o : S.Op) → W → Except Stop (S.Res o × W)} {o : S.Op} {w w' w'' : W}
    {r r' : S.Res o} (h : exec o w = .ok (r, w'))
    (hrun : run exec (.step o .ret) w = .ok (r', w'')) : w' = w'' :=
  (Prod.mk.inj (Except.ok.inj ((run_step_ok h).symm.trans hrun))).2

theorem run_step_error {exec : (o : S.Op) → W → Except Stop (S.Res o × W)} {o : S.Op}
    {k : S.Res o → Prog S α} {w : W} {e : Stop} (h : exec o w = .error e) :
    run exec (.step o k) w = .error e := by
  simp only [run, h]

theorem run_bind (exec : (o : S.Op) → W → Except Stop (S.Res o × W)) (p : Prog S α)
    (f : α → Prog S β) (w : W) :
    run exec (p.bind f) w =
      match run exec p w with
      | .ok (a, w') => run exec (f a) w'
      | .error e => .error e := by
  induction p generalizing w with
  | ret a => rfl
  | step o k ih =>
    simp only [Prog.bind, run]
    cases exec o w with
    | error e => rfl
    | ok x => exact ih x.1 x.2

/-- A part that returns, then the rest. -/
theorem run_bind_ok {exec : (o : S.Op) → W → Except Stop (S.Res o × W)} {p : Prog S α}
    {f : α → Prog S β} {w w' : W} {a : α} (h : run exec p w = .ok (a, w')) :
    run exec (p.bind f) w = run exec (f a) w' := by
  rw [run_bind, h]

/-- The parts of a run that returned. -/
theorem run_bind_inv {exec : (o : S.Op) → W → Except Stop (S.Res o × W)} {p : Prog S α}
    {f : α → Prog S β} {w w' : W} {b : β} (h : run exec (p.bind f) w = .ok (b, w')) :
    ∃ a w₁, run exec p w = .ok (a, w₁) ∧ run exec (f a) w₁ = .ok (b, w') := by
  rw [run_bind] at h
  cases hp : run exec p w with
  | error e =>
    rw [hp] at h
    cases h
  | ok x =>
    rw [hp] at h
    exact ⟨x.1, x.2, rfl, h⟩

theorem run_step_inv {exec : (o : S.Op) → W → Except Stop (S.Res o × W)} {o : S.Op}
    {k : S.Res o → Prog S α} {w w' : W} {a : α} (h : run exec (.step o k) w = .ok (a, w')) :
    ∃ r w₁, exec o w = .ok (r, w₁) ∧ run exec (k r) w₁ = .ok (a, w') := by
  cases he : exec o w with
  | error e =>
    rw [run_step_error he] at h
    cases h
  | ok x =>
    exact ⟨x.1, x.2, rfl, (run_step_ok he).symm.trans h⟩

/-! ## Reasoning under interference -/

structure Logic (S : Sig) (W : Type) where
  exec : (o : S.Op) → W → Except Stop (S.Res o × W)
  rely : W → W → Prop
  guar : W → W → Prop
  safe : S.Op → W → Prop
  stops : Stop → W → Prop
  fits : W → Prop

namespace Logic

/-- What one operation must do, taken in `w`: it is safe there, and it either answers,
with a step inside `guar` and `P` afterwards, or stops in a tolerated way. -/
def Does (L : Logic S W) (o : S.Op) (w : W) (P : S.Res o → W → Prop) : Prop :=
  L.safe o w ∧
  match L.exec o w with
  | .ok (r, w') => L.fits w' → L.guar w w' ∧ P r w'
  | .error e => L.stops e w

theorem Does.mono {L : Logic S W} {o : S.Op} {w : W} {P P' : S.Res o → W → Prop}
    (h : L.Does o w P) (hP : ∀ r w', P r w' → P' r w') : L.Does o w P' := by
  refine ⟨h.1, ?_⟩
  have h2 := h.2
  split at h2
  · next r w' _ => exact fun hf => ⟨(h2 hf).1, hP r w' (h2 hf).2⟩
  · exact h2

theorem Does.of_ok {L : Logic S W} {o : S.Op} {w w' : W} {r : S.Res o} {P : S.Res o → W → Prop}
    (hs : L.safe o w) (he : L.exec o w = .ok (r, w'))
    (h : L.fits w' → L.guar w w' ∧ P r w') : L.Does o w P := by
  refine ⟨hs, ?_⟩
  rw [he]
  exact h

theorem Does.of_error {L : Logic S W} {o : S.Op} {w : W} {e : Stop} {P : S.Res o → W → Prop}
    (hs : L.safe o w) (he : L.exec o w = .error e) (h : L.stops e w) : L.Does o w P := by
  refine ⟨hs, ?_⟩
  rw [he]
  exact h

end Logic

/-- `Q` holds when `p` returns, whatever the others do in between. -/
def wp (L : Logic S W) : Prog S α → (α → W → Prop) → W → Prop
  | .ret a, Q, w => Q a w
  | .step o k, Q, w => ∀ w', L.rely w w' → L.Does o w' fun r w'' => wp L (k r) Q w''

section
variable {L : Logic S W}

@[simp] theorem wp_ret (a : α) (Q : α → W → Prop) (w : W) : wp L (.ret a) Q w ↔ Q a w := Iff.rfl

@[simp] theorem wp_pure (a : α) (Q : α → W → Prop) (w : W) : wp L (pure a) Q w ↔ Q a w := Iff.rfl

theorem wp_mono {p : Prog S α} {Q Q' : α → W → Prop} (hQ : ∀ a w, Q a w → Q' a w) :
    ∀ {w}, wp L p Q w → wp L p Q' w := by
  induction p with
  | ret a => exact hQ a _
  | step o k ih => exact fun h w' hr => (h w' hr).mono fun r w'' => ih r

theorem wp_progBind {p : Prog S α} {f : α → Prog S β} {Q : β → W → Prop} :
    ∀ {w}, wp L (p.bind f) Q w ↔ wp L p (fun a w => wp L (f a) Q w) w := by
  induction p with
  | ret a => exact Iff.rfl
  | step o k ih =>
    intro w
    constructor
    · exact fun h w' hr => (h w' hr).mono fun r w'' => (ih r).mp
    · exact fun h w' hr => (h w' hr).mono fun r w'' => (ih r).mpr

theorem wp_bind {p : Prog S α} {f : α → Prog S β} {Q : β → W → Prop} {w : W} :
    wp L (p >>= f) Q w ↔ wp L p (fun a w => wp L (f a) Q w) w := wp_progBind

/-- The usual way to pass a call: its specification, then the rest. -/
theorem wp_seq {p : Prog S α} {f : α → Prog S β} {P : α → W → Prop} {Q : β → W → Prop} {w : W}
    (hp : wp L p P w) (hf : ∀ a w', P a w' → wp L (f a) Q w') : wp L (p >>= f) Q w :=
  wp_bind.mpr (wp_mono hf hp)

theorem wp_ite (c : Prop) [Decidable c] {p q : Prog S α} {Q : α → W → Prop} {w : W}
    (ht : c → wp L p Q w) (he : ¬ c → wp L q Q w) : wp L (if c then p else q) Q w := by
  split
  · next h => exact ht h
  · next h => exact he h

/-- What was established stays established while the others act. -/
theorem wp_stable (htrans : ∀ w1 w2 w3, L.rely w1 w2 → L.rely w2 w3 → L.rely w1 w3)
    {p : Prog S α} {Q : α → W → Prop} (hQ : ∀ a w w', Q a w → L.rely w w' → Q a w') {w w' : W}
    (h : wp L p Q w) (hr : L.rely w w') : wp L p Q w' := by
  cases p with
  | ret a => exact hQ a w w' h hr
  | step o k => exact fun w'' hr' => h w'' (htrans _ _ _ hr hr')

theorem wp_forFrom {body : Nat → σ → Prog S σ} {n : Nat} {I : Nat → σ → W → Prop}
    (hstep : ∀ i s w, i < n → I i s w → wp L (body i s) (I (i + 1)) w) :
    ∀ m i s w, i + m = n → I i s w → wp L (Prog.forFrom body i m s) (I n) w := by
  intro m
  induction m with
  | zero =>
    intro i s w hi h
    obtain rfl : i = n := by omega
    exact h
  | succ m ih =>
    intro i s w hi h
    refine wp_progBind.mpr (wp_mono (fun s' w' h' => ih (i + 1) s' w' (by omega) h') ?_)
    exact hstep i s w (by omega) h

/-- A counted loop keeps an invariant indexed by the counter. -/
theorem wp_forRange {body : Nat → σ → Prog S σ} {n : Nat} {I : Nat → σ → W → Prop} {s : σ} {w : W}
    (h0 : I 0 s w) (hstep : ∀ i s w, i < n → I i s w → wp L (body i s) (I (i + 1)) w) :
    wp L (Prog.forRange n body s) (I n) w :=
  wp_forFrom hstep n 0 s w (by omega) h0

/-- A loop over a list keeps an invariant indexed by what it has gone through. -/
theorem wp_forEach {body : α → σ → Prog S σ} {I : List α → σ → W → Prop} {xs : List α}
    (hstep : ∀ done x s w, x ∈ xs → I done s w → wp L (body x s) (I (done ++ [x])) w) :
    ∀ todo done s w, done ++ todo = xs → I done s w → wp L (Prog.forEach body todo s) (I xs) w := by
  intro todo
  induction todo with
  | nil =>
    intro done s w hxs h
    rw [List.append_nil] at hxs
    rwa [← hxs]
  | cons x todo ih =>
    intro done s w hxs h
    apply wp_progBind.mpr
    have hx : x ∈ xs := by
      rw [← hxs]
      simp
    apply wp_mono _ (hstep done x s w hx h)
    intro s' w' h'
    apply ih (done ++ [x]) s' w' _ h'
    simpa using hxs

end

/-- A logic that relies on more and promises less. -/
theorem wp_weaken {L M : Logic S W} (hexec : M.exec = L.exec)
    (hrely : ∀ w w', M.rely w w' → L.rely w w') (hguar : ∀ w w', L.guar w w' → M.guar w w')
    (hsafe : ∀ o w, L.safe o w → M.safe o w) (hstops : ∀ e w, L.stops e w → M.stops e w)
    (hfits : ∀ w, M.fits w → L.fits w) {p : Prog S α} {Q : α → W → Prop} :
    ∀ {w}, wp L p Q w → wp M p Q w := by
  induction p with
  | ret a => exact fun h => h
  | step o k ih =>
    intro w h w' hr
    obtain ⟨h1, h2⟩ := h w' (hrely w w' hr)
    refine ⟨hsafe o w' h1, ?_⟩
    rw [hexec]
    split at h2
    · exact fun hf => ⟨hguar _ _ (h2 (hfits _ hf)).1, ih _ (h2 (hfits _ hf)).2⟩
    · exact hstops _ _ h2

/-! ## Which operations a program takes -/

/-- Whatever it is answered, the program only takes operations that satisfy `P`. -/
def Prog.Only (P : S.Op → Prop) : Prog S α → Prop
  | .ret _ => True
  | .step o k => P o ∧ ∀ r, (k r).Only P

theorem Prog.Only.mono {P P' : S.Op → Prop} (hP : ∀ o, P o → P' o) {p : Prog S α} (hp : p.Only P) :
    p.Only P' := by
  induction p with
  | ret a => trivial
  | step o k ih => exact ⟨hP o hp.1, fun r => ih r (hp.2 r)⟩

theorem Prog.Only.bind {P : S.Op → Prop} {p : Prog S α} {f : α → Prog S β} (hp : p.Only P)
    (hf : ∀ a, (f a).Only P) : (p >>= f).Only P := by
  induction p with
  | ret a => exact hf a
  | step o k ih => exact ⟨hp.1, fun r => ih r (hp.2 r)⟩

theorem Prog.Only.ite {P : S.Op → Prop} {p q : Prog S α} (c : Prop) [Decidable c] (hp : p.Only P)
    (hq : q.Only P) : (if c then p else q).Only P := by
  split
  · exact hp
  · exact hq

theorem Prog.Only.forRange {P : S.Op → Prop} {body : Nat → σ → Prog S σ} {n : Nat} {x : σ}
    (hbody : ∀ i x, (body i x).Only P) : (Prog.forRange n body x).Only P := by
  unfold Prog.forRange
  generalize 0 = i
  induction n generalizing i x with
  | zero => trivial
  | succ n ih => exact Prog.Only.bind (hbody i x) fun x' => ih (i + 1)

/-- Which operations may be taken in which stage, and what stage each answer leads to, is written
down in `turn`: the program keeps to it, and `Q` holds of the stage in which it returns. -/
def Prog.Follows (turn : (o : S.Op) → σ → Option (S.Res o → σ)) :
    Prog S α → σ → (α → σ → Prop) → Prop
  | .ret a, x, Q => Q a x
  | .step o k, x, Q => ∃ f, turn o x = some f ∧ ∀ r, (k r).Follows turn (f r) Q

section
variable {turn : (o : S.Op) → σ → Option (S.Res o → σ)}

theorem Prog.Follows.bind {p : Prog S α} {f : α → Prog S β} {P : α → σ → Prop} {Q : β → σ → Prop}
    {x : σ} (hp : p.Follows turn x P) (hf : ∀ a x, P a x → (f a).Follows turn x Q) :
    (p >>= f).Follows turn x Q := by
  induction p generalizing x with
  | ret a => exact hf a x hp
  | step o k ih =>
    obtain ⟨next, hnext, hk⟩ := hp
    exact ⟨next, hnext, fun r => ih r (hk r)⟩

/-- A program that ends in one stage, then the rest. -/
theorem Prog.Follows.seq {p : Prog S α} {f : α → Prog S β} {Q : β → σ → Prop} {x x' : σ}
    (hp : p.Follows turn x fun _ y => y = x') (hf : ∀ a, (f a).Follows turn x' Q) :
    (p >>= f).Follows turn x Q := by
  refine hp.bind fun a y hy => ?_
  rw [hy]
  exact hf a

theorem Prog.Follows.ite {p q : Prog S α} {x : σ} {Q : α → σ → Prop} (c : Prop) [Decidable c]
    (ht : c → p.Follows turn x Q) (he : ¬ c → q.Follows turn x Q) :
    (if c then p else q).Follows turn x Q := by
  split
  · next h => exact ht h
  · next h => exact he h

/-- A program whose operations all stay in one stage. -/
theorem Prog.Only.follows {P : S.Op → Prop} {p : Prog S α} {x : σ}
    (hstay : ∀ o, P o → turn o x = some fun _ => x) (hp : p.Only P) :
    p.Follows turn x fun _ y => y = x := by
  induction p with
  | ret a => rfl
  | step o k ih => exact ⟨fun _ => x, hstay o hp.1, fun r => ih r (hp.2 r)⟩

end

/-- After an operation that satisfies `P` the program returns at once. -/
def Prog.Last (P : S.Op → Prop) : Prog S α → Prop
  | .ret _ => True
  | .step o k => ∀ r, (P o → ∃ a, k r = .ret a) ∧ (k r).Last P

theorem Prog.Only.last {P : S.Op → Prop} {p : Prog S α} {f : α → Prog S β}
    (hp : p.Only fun o => ¬ P o) (hf : ∀ a, (f a).Last P) : (p >>= f).Last P := by
  induction p with
  | ret a => exact hf a
  | step o k ih => exact fun r => ⟨fun h => absurd h hp.1, ih r (hp.2 r)⟩

theorem Prog.Last.map {P : S.Op → Prop} {p : Prog S α} (hp : p.Last P) (f : α → β) :
    (p >>= fun a => .ret (f a)).Last P := by
  induction p with
  | ret a => trivial
  | step o k ih =>
    refine fun r => ⟨fun h => ?_, ih r (hp r).2⟩
    obtain ⟨a, ha⟩ := (hp r).1 h
    refine ⟨f a, ?_⟩
    show (k r).bind _ = _
    rw [ha]
    rfl

/-- What only holds of the operations is known before each of them. -/
theorem wp_only {L : Logic S W} {P : S.Op → Prop} {p : Prog S α} {Q : α → W → Prop}
    (hp : p.Only P) : ∀ {w}, wp L p Q w →
      wp { L with safe := fun o w => L.safe o w ∧ P o } p Q w := by
  induction p with
  | ret a => exact fun h => h
  | step o k ih =>
    intro w h w' hr
    obtain ⟨h1, h2⟩ := h w' hr
    exact ⟨⟨h1, hp.1⟩, (Logic.Does.mono ⟨h1, h2⟩ fun r w'' hw => ih r (hp.2 r) hw).2⟩

/-- What is known of the steps inside `guar` is promised too. -/
theorem wp_also {L : Logic S W} {P : S.Op → Prop} {G : W → W → Prop}
    (hG : ∀ o w r w', P o → L.exec o w = .ok (r, w') → L.guar w w' → G w w') {p : Prog S α}
    {Q : α → W → Prop} (hp : p.Only P) : ∀ {w}, wp L p Q w →
      wp { L with guar := fun w w' => L.guar w w' ∧ G w w' } p Q w := by
  induction p with
  | ret a => exact fun h => h
  | step o k ih =>
    intro w h w' hr
    obtain ⟨h1, h2⟩ := h w' hr
    refine ⟨h1, ?_⟩
    show match L.exec o w' with
      | .ok (r, w'') => _
      | .error e => _
    cases he : L.exec o w' with
    | error e =>
      rw [he] at h2
      exact h2
    | ok x =>
      rw [he] at h2
      intro hf
      obtain ⟨h3, h4⟩ := h2 hf
      exact ⟨⟨h3, hG o w' x.1 x.2 hp.1 he h3⟩, ih x.1 (hp.2 x.1) h4⟩

/-- What each operation of a program does, a run of it does. -/
theorem Prog.Only.run {exec : (o : S.Op) → W → Except Stop (S.Res o × W)} {P : S.Op → Prop}
    {R : W → W → Prop} (hrefl : ∀ w, R w w) (htrans : ∀ w₁ w₂ w₃, R w₁ w₂ → R w₂ w₃ → R w₁ w₃)
    (hop : ∀ o w r w', P o → exec o w = .ok (r, w') → R w w') {p : Prog S α} (hp : p.Only P) :
    ∀ {w w' : W} {a : α}, Resume.run exec p w = .ok (a, w') → R w w' := by
  induction p with
  | ret a =>
    intro w w' b h
    obtain ⟨-, rfl⟩ := Prod.mk.inj (Except.ok.inj h)
    exact hrefl w
  | step o k ih =>
    intro w w' b h
    obtain ⟨r, w₁, he, h⟩ := run_step_inv h
    exact htrans _ _ _ (hop o w r w₁ hp.1 he) (ih r (hp.2 r) h)

/-- On every path, at most `n` operations satisfy `P`. -/
def Prog.Few (P : S.Op → Prop) : Nat → Prog S α → Prop
  | _, .ret _ => True
  | n, .step o k => ¬ P o ∧ (∀ r, (k r).Few P n) ∨ ∃ m, n = m + 1 ∧ ∀ r, (k r).Few P m

theorem Prog.Only.few {P : S.Op → Prop} {p : Prog S α} (hp : p.Only fun o => ¬ P o) (n : Nat) :
    p.Few P n := by
  induction p with
  | ret a => trivial
  | step o k ih => exact Or.inl ⟨hp.1, fun r => ih r (hp.2 r)⟩

theorem Prog.Few.mono {P : S.Op → Prop} {p : Prog S α} : ∀ {n m : Nat}, n ≤ m → p.Few P n →
    p.Few P m := by
  induction p with
  | ret a => exact fun _ _ => trivial
  | step o k ih =>
    rintro n m hnm (⟨ho, hk⟩ | ⟨n', rfl, hk⟩)
    · exact Or.inl ⟨ho, fun r => ih r hnm (hk r)⟩
    · exact Or.inr ⟨m - 1, by omega, fun r => ih r (by omega) (hk r)⟩

theorem Prog.Few.bind {P : S.Op → Prop} {p : Prog S α} {f : α → Prog S β} {m : Nat}
    (hf : ∀ a, (f a).Few P m) : ∀ {n : Nat}, p.Few P n → (p >>= f).Few P (n + m) := by
  induction p with
  | ret a => exact fun {n} _ => (hf a).mono (Nat.le_add_left m n)
  | step o k ih =>
    rintro n (⟨ho, hk⟩ | ⟨n', rfl, hk⟩)
    · exact Or.inl ⟨ho, fun r => ih r (hk r)⟩
    · exact Or.inr ⟨n' + m, by omega, fun r => ih r (hk r)⟩

theorem Prog.Few.forRange {P : S.Op → Prop} {body : Nat → σ → Prog S σ} {n m : Nat} {x : σ}
    (hbody : ∀ i x, (body i x).Few P m) : (Prog.forRange n body x).Few P (n * m) := by
  unfold Prog.forRange
  generalize 0 = i
  induction n generalizing i x with
  | zero => trivial
  | succ n ih =>
    have h := Prog.Few.bind (f := Prog.forFrom body (i + 1) n) (fun x' => ih (i + 1)) (hbody i x)
    rwa [Nat.add_comm, ← Nat.succ_mul] at h

/-! ## What holds along a run -/

/-- Every operation of the run of the program from `w` satisfies `ok` where it is taken. -/
def Along (exec : (o : S.Op) → W → Except Stop (S.Res o × W)) (ok : S.Op → W → Prop) :
    Prog S α → W → Prop
  | .ret _, _ => True
  | .step o k, w => ok o w ∧ ∀ r w', exec o w = .ok (r, w') → Along exec ok (k r) w'

section
variable {exec : (o : S.Op) → W → Except Stop (S.Res o × W)} {ok : S.Op → W → Prop}

theorem along_bind {p : Prog S α} {f : α → Prog S β} {w : W} :
    Along exec ok (p >>= f) w ↔
      Along exec ok p w ∧ ∀ a w', run exec p w = .ok (a, w') → Along exec ok (f a) w' := by
  induction p generalizing w with
  | ret a =>
    constructor
    · intro h
      refine ⟨trivial, fun b w' hrun => ?_⟩
      obtain ⟨rfl, rfl⟩ := Prod.mk.inj (Except.ok.inj hrun)
      exact h
    · intro h
      exact h.2 a w rfl
  | step o k ih =>
    constructor
    · rintro ⟨ho, hk⟩
      refine ⟨⟨ho, fun r w₁ he => (ih r |>.mp (hk r w₁ he)).1⟩, fun a w' hrun => ?_⟩
      cases he : exec o w with
      | error e =>
        rw [run_step_error he] at hrun
        cases hrun
      | ok x =>
        have he : exec o w = .ok (x.1, x.2) := he
        rw [run_step_ok he] at hrun
        exact ((ih x.1).mp (hk x.1 x.2 he)).2 a w' hrun
    · rintro ⟨⟨ho, hk⟩, hf⟩
      refine ⟨ho, fun r w₁ he => (ih r).mpr ⟨hk r w₁ he, fun a w' hrun => hf a w' ?_⟩⟩
      rw [run_step_ok he]
      exact hrun

theorem along_step {o : S.Op} {k : S.Res o → Prog S α} {r : S.Res o} {w w' : W}
    (he : exec o w = .ok (r, w')) :
    Along exec ok (.step o k) w ↔ ok o w ∧ Along exec ok (k r) w' := by
  constructor
  · rintro ⟨ho, hk⟩
    exact ⟨ho, hk r w' he⟩
  · rintro ⟨ho, hk⟩
    refine ⟨ho, fun r₁ w₁ he₁ => ?_⟩
    obtain ⟨rfl, rfl⟩ := Prod.mk.inj (Except.ok.inj (he.symm.trans he₁))
    exact hk

/-- What holds at every operation and at the end holds at the beginning. -/
theorem Along.start {K : W → Prop} {p : Prog S α} {a : α} {w w' : W}
    (h : Along exec (fun _ => K) p w) (hrun : run exec p w = .ok (a, w')) (hK : K w') : K w := by
  cases p with
  | ret b =>
    obtain ⟨-, rfl⟩ := Prod.mk.inj (Except.ok.inj hrun)
    exact hK
  | step o k => exact h.1

theorem Along.mono {ok' : S.Op → W → Prop} (hok : ∀ o w, ok o w → ok' o w) {p : Prog S α} :
    ∀ {w : W}, Along exec ok p w → Along exec ok' p w := by
  induction p with
  | ret a => exact fun _ => trivial
  | step o k ih => exact fun h => ⟨hok o _ h.1, fun r w' he => ih r (h.2 r w' he)⟩

/-- A run can be watched. -/
instance Along.decidable [∀ o w, Decidable (ok o w)] : ∀ (p : Prog S α) (w : W),
    Decidable (Along exec ok p w)
  | .ret _, _ => isTrue trivial
  | .step o k, w =>
    match he : exec o w with
    | .ok (r, w') =>
      have := Along.decidable (k r) w'
      decidable_of_iff (ok o w ∧ Along exec ok (k r) w') (along_step he).symm
    | .error _ => decidable_of_iff (ok o w) ⟨fun h => ⟨h, fun _ _ h' => nomatch he.symm.trans h'⟩, And.left⟩

theorem Prog.Only.along {p : Prog S α} (hp : p.Only fun o => ∀ w, ok o w) {w : W} :
    Along exec ok p w := by
  induction p generalizing w with
  | ret a => trivial
  | step o k ih => exact ⟨hp.1 w, fun r w' _ => ih r (hp.2 r)⟩

end

/-! ## No interference -/

namespace Logic

/-- A run on its own, with a chosen guarantee and tolerated stops. -/
def alone (exec : (o : S.Op) → W → Except Stop (S.Res o × W)) (guar : W → W → Prop)
    (stops : Stop → W → Prop) : Logic S W where
  exec := exec
  rely := Eq
  guar := guar
  safe _ _ := True
  stops := stops
  fits _ := True

end Logic

section
variable {exec : (o : S.Op) → W → Except Stop (S.Res o × W)} {guar : W → W → Prop}
  {stops : Stop → W → Prop}

/-- One operation that answers. -/
theorem wp_answer {o : S.Op} {k : S.Res o → Prog S α} {Q : α → W → Prop} {r : S.Res o} {w w' : W}
    (he : exec o w = .ok (r, w')) (hg : guar w w')
    (h : wp (Logic.alone exec guar stops) (k r) Q w') :
    wp (Logic.alone exec guar stops) (.step o k) Q w := by
  rintro w₁ rfl
  exact Logic.Does.of_ok trivial he fun _ => ⟨hg, h⟩

/-- A program alone either returns, with its postcondition and with all its steps inside
the guarantee, or it stops in a tolerated way. -/
theorem wp_run (hrefl : ∀ w, guar w w) (htrans : ∀ a b c, guar a b → guar b c → guar a c)
    {p : Prog S α} {Q : α → W → Prop} : ∀ {w}, wp (Logic.alone exec guar stops) p Q w →
      (∃ a w', run exec p w = .ok (a, w') ∧ Q a w' ∧ guar w w') ∨
      (∃ e w', run exec p w = .error e ∧ stops e w' ∧ guar w w') := by
  induction p with
  | ret a => exact fun {w} h => Or.inl ⟨a, w, rfl, h, hrefl w⟩
  | step o k ih =>
    intro w h
    have h1 := (h w rfl).2
    change match exec o w with
      | .ok (r, w') => True → guar w w' ∧ wp (Logic.alone exec guar stops) (k r) Q w'
      | .error e => stops e w at h1
    simp only [run]
    cases he : exec o w with
    | error e =>
      rw [he] at h1
      exact Or.inr ⟨e, w, rfl, h1, hrefl w⟩
    | ok x =>
      rw [he] at h1
      obtain ⟨hg1, h2⟩ := h1 trivial
      rcases ih x.1 h2 with ⟨a, w', hr, hq, hg⟩ | ⟨e, w', hr, hs, hg⟩
      · exact Or.inl ⟨a, w', hr, hq, htrans _ _ _ hg1 hg⟩
      · exact Or.inr ⟨e, w', hr, hs, htrans _ _ _ hg1 hg⟩

/-- What a run says about a program, when nothing is asked of its single steps. -/
theorem wp_of_run {stops : Stop → Prop} {p : Prog S α} {Q : α → W → Prop} : ∀ {w},
    ((∃ a w', run exec p w = .ok (a, w') ∧ Q a w') ∨ ∃ e, run exec p w = .error e ∧ stops e) →
      wp (Logic.alone exec (fun _ _ => True) fun e _ => stops e) p Q w := by
  induction p with
  | ret a =>
    rintro w (⟨b, w', h, hq⟩ | ⟨e, h, -⟩)
    · obtain ⟨rfl, rfl⟩ := Prod.mk.inj (Except.ok.inj h)
      exact hq
    · cases h
  | step o k ih =>
    rintro w h w' rfl
    refine ⟨trivial, ?_⟩
    simp only [run] at h
    simp only [Logic.alone]
    cases he : exec o w with
    | ok x =>
      rw [he] at h
      exact fun _ => ⟨trivial, ih x.1 h⟩
    | error e =>
      rw [he] at h
      rcases h with ⟨b, w', h, -⟩ | ⟨e', h, hs⟩
      · cases h
      · obtain rfl := Except.error.inj h
        exact hs

/-- Where everything is tolerated, nothing has to be shown. -/
theorem wp_trivial (p : Prog S α) (w : W) :
    wp (Logic.alone exec (fun _ _ => True) fun _ _ => True) p (fun _ _ => True) w := by
  refine wp_of_run ?_
  cases run exec p w with
  | ok a => exact Or.inl ⟨a.1, a.2, rfl, trivial⟩
  | error e => exact Or.inr ⟨e, rfl, trivial⟩

end

/-! ## One state inside another -/

/-- A proof over the part `v x` of the state `x`, next to a fact `I` that every step keeps. -/
theorem wp_view {V : Type} {L : Logic S W} {M : Logic S V} (v : V → W) (I : V → Prop)
    (hrely : ∀ x x', I x → M.rely x x' → L.rely (v x) (v x') ∧ I x')
    (hdoes : ∀ o x P, I x → L.Does o (v x) P → M.Does o x fun r x' => P r (v x') ∧ I x')
    {p : Prog S α} {Q : α → W → Prop} : ∀ {x}, I x → wp L p Q (v x) →
      wp M p (fun a x' => Q a (v x') ∧ I x') x := by
  induction p with
  | ret a => exact fun hI h => ⟨h, hI⟩
  | step o k ih =>
    intro x hI h x' hr
    obtain ⟨hr', hI'⟩ := hrely x x' hI hr
    exact (hdoes o x' _ hI' (h _ hr')).mono fun r x'' h' => ih r h'.2 h'.1

/-! ## One interface inside another -/

/-- The operations of `S` as operations of `T`. -/
structure Emb (S T : Sig) where
  op : S.Op → T.Op
  res : ∀ o, T.Res (op o) → S.Res o

def Prog.lift (e : Emb S T) : Prog S α → Prog T α
  | .ret a => .ret a
  | .step o k => .step (e.op o) fun r => (k (e.res o r)).lift e

theorem lift_bind (e : Emb S T) (p : Prog S α) (f : α → Prog S β) :
    (p >>= f).lift e = p.lift e >>= fun a => (f a).lift e := by
  induction p with
  | ret a => rfl
  | step o k ih => exact congrArg (Prog.step (e.op o)) (funext fun r => ih (e.res o r))

/-- A program over the inner interface, run in a part `v x` of the state, which `u x` puts back. -/
theorem run_lift {V : Type} {e : Emb S T} {exec : (o : S.Op) → W → Except Stop (S.Res o × W)}
    {exec' : (o : T.Op) → V → Except Stop (T.Res o × V)} {v : V → W} {u : V → W → V}
    (hvu : ∀ x w, v (u x w) = w) (huu : ∀ x w w', u (u x w) w' = u x w') (huv : ∀ x, u x (v x) = x)
    (hex : ∀ o x, (exec' (e.op o) x).map (fun y => (e.res o y.1, y.2)) =
      (exec o (v x)).map fun y => (y.1, u x y.2)) (p : Prog S α) :
    ∀ x, run exec' (p.lift e) x = (run exec p (v x)).map fun y => (y.1, u x y.2) := by
  induction p with
  | ret a => exact fun x => congrArg (fun y => Except.ok (a, y)) (huv x).symm
  | step o k ih =>
    intro x
    have h := hex o x
    simp only [Prog.lift, run]
    cases he : exec o (v x) with
    | error err =>
      rw [he] at h
      cases he' : exec' (e.op o) x with
      | error err' =>
        rw [he'] at h
        exact congrArg Except.error (Except.error.inj h)
      | ok y =>
        rw [he'] at h
        cases h
    | ok y =>
      rw [he] at h
      cases he' : exec' (e.op o) x with
      | error err' =>
        rw [he'] at h
        cases h
      | ok y' =>
        rw [he'] at h
        obtain ⟨h1, h2⟩ := Prod.mk.inj (Except.ok.inj h)
        show run exec' ((k (e.res o y'.1)).lift e) y'.2 = (run exec (k y.1) y.2).map _
        rw [show e.res o y'.1 = y.1 from h1, show y'.2 = u x y.2 from h2, ih, hvu]
        cases run exec (k y.1) y.2 with
        | error err => rfl
        | ok z => exact congrArg (fun w => Except.ok (z.1, w)) (huu x y.2 z.2)

/-- The logic of the inner interface that a logic of the outer one gives. -/
def Logic.pull (e : Emb S T) (L : Logic T W) : Logic S W where
  exec o w :=
    match L.exec (e.op o) w with
    | .ok (r, w') => .ok (e.res o r, w')
    | .error x => .error x
  rely := L.rely
  guar := L.guar
  safe o := L.safe (e.op o)
  stops := L.stops
  fits := L.fits

/-- The operations of a lifted program are those of `S`. -/
theorem only_lift {e : Emb S T} {P : T.Op → Prop} (h : ∀ o, P (e.op o)) (p : Prog S α) :
    (p.lift e).Only P := by
  induction p with
  | ret a => trivial
  | step o k ih => exact ⟨h o, fun r => ih _⟩

theorem Prog.Only.lift {e : Emb S T} {P : S.Op → Prop} {P' : T.Op → Prop}
    (h : ∀ o, P o → P' (e.op o)) {p : Prog S α} (hp : p.Only P) : (p.lift e).Only P' := by
  induction p with
  | ret a => trivial
  | step o k ih => exact ⟨h o hp.1, fun r => ih _ (hp.2 _)⟩

theorem wp_lift {e : Emb S T} {L : Logic T W} {p : Prog S α} {Q : α → W → Prop} :
    ∀ {w}, wp (L.pull e) p Q w → wp L (p.lift e) Q w := by
  induction p with
  | ret a => exact fun h => h
  | step o k ih =>
    intro w h w' hr
    obtain ⟨h1, h2⟩ := h w' hr
    refine ⟨h1, ?_⟩
    simp only [Logic.pull] at h2
    cases he : L.exec (e.op o) w' with
    | error x =>
      rw [he] at h2
      exact h2
    | ok x =>
      rw [he] at h2
      exact fun hf => ⟨(h2 hf).1, ih _ (h2 hf).2⟩

end Resume
