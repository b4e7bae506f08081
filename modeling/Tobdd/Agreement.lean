import Tobdd.ThreadSafety

/-!
# Threads agree on handles

`Reach.canonicity` is about one thread between its calls.  Here any number of threads are in the
middle of theirs, one of them perhaps marking or freeing nodes: what is held stands for one
function, and two handles that are held are the same pointer if and only if they stand for the same
function (`Shared.Canonical`).

A step into a configuration in which nobody cleans up finds the table in order.  While somebody
does, nothing becomes held that was not, and what is held keeps its meaning.

    Guar.canonical: every step keeps that
    clients_agree: so it holds of every configuration, and an operation answers the handle that is
      held for its function already
-/

namespace Tobdd.ManagerThreads

open Resume Diagram World
open Manager (Op ops fresh x0 x1 both)

/-- `is_true` -/
def isTrue (g : Consts) (bdd : Bdd) : Bool := bdd == g.trueId

/-- `is_false` -/
def isFalse (g : Consts) (bdd : Bdd) : Bool := bdd == g.falseId

/-- The handles that are held, by a thread or by the manager, and their functions. -/
structure Shared.Canonical (g : Consts) (x : Shared) : Prop where
  stands : ∀ a, x.count g a ≠ 0 → ∃ f, x.Means g a f ∧ ∀ f', x.Means g a f' → f' = f
  eq_iff : ∀ a b f f', x.count g a ≠ 0 → x.count g b ≠ 0 → x.Means g a f → x.Means g b f' →
    (a = b ↔ f = f')
  isTrue : ∀ a f, x.count g a ≠ 0 → x.Means g a f → (isTrue g a = true ↔ ∀ v, f v = true)
  isFalse : ∀ a f, x.count g a ≠ 0 → x.Means g a f → (isFalse g a = true ↔ ∀ v, f v = false)

/-- What threads on one manager agree on. -/
structure Agreed (g : Consts) (s : Conf ops Shared Nat Call Ret) : Prop where
  canonical : s.world.Canonical g
  /-- an operation answers the handle that is held for its function already, if there is one -/
  answers : ∀ t c r a F, s.pc t = some (.op c, .ret r) → c.Spec (fun b f => s.world.Means g b f) F →
    s.world.count g a ≠ 0 → (r = .bdd a ↔ s.world.Means g a F)

section
variable {g : Consts} {m n t : Nat} {x x' x₀ : Shared} {a b : Bdd} {f f' : BoolFn}

theorem proper_of_ne (hne : g.trueId ≠ g.falseId) (h : Heap) : (g.graph h).Proper := by
  constructor
  · exact hne
  · intro hnode
    exact hnode.2.1 rfl
  · intro hnode
    exact hnode.2.2 rfl

theorem means_functional (hne : g.trueId ≠ g.falseId) (hf : x.Means g a f) (hf' : x.Means g a f') :
    f = f' :=
  Diagram.Denotes.functional (proper_of_ne hne x.world.heap) hf hf'

/-- What follows when every handle that is held means something, and no two of them the same. -/
theorem Shared.Canonical.of_injective (hne : g.trueId ≠ g.falseId)
    (hmeans : ∀ a, x.count g a ≠ 0 → ∃ f, x.Means g a f)
    (hinj : ∀ a b f, x.count g a ≠ 0 → x.count g b ≠ 0 → x.Means g a f → x.Means g b f → a = b) :
    x.Canonical g := by
  have htop : x.count g g.trueId ≠ 0 := holds_count (t := 0) (Or.inr (Or.inl rfl))
  have hbot : x.count g g.falseId ≠ 0 := holds_count (t := 0) (Or.inr (Or.inr (Or.inl rfl)))
  constructor
  · intro a ha
    obtain ⟨f, hf⟩ := hmeans a ha
    exact ⟨f, hf, fun f' hf' => means_functional hne hf' hf⟩
  · intro a b f f' ha hb hf hf'
    constructor
    · rintro rfl
      exact means_functional hne hf hf'
    · rintro rfl
      exact hinj a b f ha hb hf hf'
  · intro a f ha hf
    have hT : x.Means g g.trueId fun _ => true := .top
    unfold ManagerThreads.isTrue
    rw [beq_iff_eq]
    constructor
    · rintro rfl v
      rw [means_functional hne hf hT]
    · intro hv
      obtain rfl : f = fun _ => true := funext hv
      exact hinj a _ _ ha htop hf hT
  · intro a f ha hf
    have hF : x.Means g g.falseId fun _ => false := .bot
    unfold ManagerThreads.isFalse
    rw [beq_iff_eq]
    constructor
    · rintro rfl v
      rw [means_functional hne hf hF]
    · intro hv
      obtain rfl : f = fun _ => false := funext hv
      exact hinj a _ _ ha hbot hf hF

/-- Where nobody cleans up, the table is in order. -/
theorem Inv.canonical (h : Inv g m n x) (hq : x.Quiet m) : x.Canonical g := by
  have ht := (h.now hq).table
  have hr := ht.reduced
  apply Shared.Canonical.of_injective hr.top_ne_bot
  · intro a ha
    exact ht.nodes.denotes (h.live hq ha)
  · intro a b f ha hb hf hf'
    exact hr.canonical (h.live hq ha) (h.live hq hb) hf hf'

/-- **One step.** -/
theorem Guar.canonical (hg : Guar g m n t x x') (hne : g.trueId ≠ g.falseId) (h : x.Canonical g) :
    x'.Canonical g := by
  by_cases hq : x'.Quiet m
  · exact hg.inv.canonical hq
  · have hold := hg.old hq
    have hkeep : ∀ a, x'.count g a ≠ 0 → ∃ f, x.Means g a f ∧ x'.Means g a f := by
      intro a ha
      obtain ⟨f, hf, -⟩ := h.stands a (hold a ha)
      exact ⟨f, hf, (hg.keeps a (hold a ha)).2 f hf⟩
    apply Shared.Canonical.of_injective hne
    · intro a ha
      obtain ⟨f, -, hf⟩ := hkeep a ha
      exact ⟨f, hf⟩
    · intro a b f ha hb hfa hfb
      obtain ⟨fa, hxa, hxa'⟩ := hkeep a ha
      obtain ⟨fb, hxb, hxb'⟩ := hkeep b hb
      rw [h.eq_iff a b fa fb (hold a ha) (hold b hb) hxa hxb]
      exact (means_functional hne hxa' hfa).trans (means_functional hne hfb hxb')

end

section
variable {m n : Nat} {x₀ : Shared} {s : Conf ops Shared Nat Call Ret}

theorem top_ne_bot (h₀ : Starts m x₀) (hf : x₀.Fits (x₀.world.consts m) m n) :
    (x₀.world.consts m).trueId ≠ (x₀.world.consts m).falseId := by
  obtain ⟨hinv, hidle⟩ := h₀.inv hf
  have hq : x₀.Quiet m := by
    intro t ht
    cases ((hidle t).writer true).mp ht
  exact (hinv.now hq).table.reduced.top_ne_bot

/-- Every step along the way keeps it. -/
theorem canonical_reach (h₀ : Starts m x₀) (hf : x₀.Fits (x₀.world.consts m) m n)
    (hs : (clients (x₀.world.consts m) m n).Reach (Shared.Fits (x₀.world.consts m) m n) x₀ s) :
    s.world.Canonical (x₀.world.consts m) := by
  obtain ⟨hinv, hidle⟩ := h₀.inv hf
  have hq : x₀.Quiet m := by
    intro t ht
    cases ((hidle t).writer true).mp ht
  induction hs with
  | init => exact hinv.canonical hq
  | step hprev hstep hfit ih =>
    obtain ⟨hi, hat⟩ := (proof _ m n).sound hinv hidle hprev
    obtain ⟨t, hg⟩ := Proved.guar ⟨hi, hat⟩ hstep hfit
    exact hg.canonical (top_ne_bot h₀ hf) ih

/-- **Threads agree**, in every configuration. -/
theorem clients_agree (h₀ : Starts m x₀) (hf : x₀.Fits (x₀.world.consts m) m n)
    (hs : (clients (x₀.world.consts m) m n).Reach (Shared.Fits (x₀.world.consts m) m n) x₀ s) :
    Agreed (x₀.world.consts m) s := by
  have hcan := canonical_reach h₀ hf hs
  refine ⟨hcan, ?_⟩
  intro t c r a F hpc hF ha
  obtain ⟨hinv, hidle⟩ := h₀.inv hf
  obtain ⟨hi, hat⟩ := (proof _ m n).sound hinv hidle hs
  obtain ⟨b, rfl, hb, F', hF', hbF⟩ := Proved.returns ⟨hi, hat⟩ hpc
  have hheld : s.world.count (x₀.world.consts m) b ≠ 0 := holds_count (Or.inl hb)
  have hone : ∀ a f f', s.world.Means (x₀.world.consts m) a f → s.world.Means (x₀.world.consts m) a f' →
      f = f' := by
    intro a f f' h1 h2
    exact means_functional (top_ne_bot h₀ hf) h1 h2
  obtain rfl : F' = F := hF'.unique hone hF
  constructor
  · intro hr
    obtain rfl : b = a := Ret.bdd.inj hr
    exact hbF
  · intro haF
    rw [(hcan.eq_iff b a F' F' hheld ha hbF haF).mpr rfl]

end

/-- Thread 1 comes to the handle that thread 0 holds, while the collector frees another one. -/
theorem clients_agree_crowd : ∃ s, s.returning 1 = some (.op (.and x1 x0), .bdd both) ∧
    (0, both) ∈ s.world.refs ∧ (s.next 2).any (fun o : Op => o.Cleans) ∧
    Agreed (fresh.consts 0) s := by
  obtain ⟨⟨h, s⟩, hrun, hret, hclean, -, hrefs, -⟩ := crowd_run
  refine ⟨s, hret, hrefs, hclean, ?_⟩
  exact clients_agree fresh_starts fresh_fits (play_runs hrun).reach

end Tobdd.ManagerThreads
