import Mathlib.Logic.Basic
import Mathlib.Tactic.Common

/-!
# Ordered decision diagrams

A graph whose inner nodes carry a level and two children, and two constants `top` and
`bot`.  `Denotes G a f`: the node `a` stands for the Boolean function `f`, read as
if-then-else on its level.

    Denotes.functional   a node stands for one function
    Denotes.congr        ... and goes on to, while the nodes below it stay as they are
    Ordered.denotes      every node of an ordered diagram stands for a function
    Reduced.canonical    in a reduced one, nodes with one function are one node
    Reduced.atLeast      ... and no node is above the first variable of its function
-/

namespace Diagram

/-- A Boolean function of the variables `0, 1, ...`. -/
abbrev BoolFn := (Nat → Bool) → Bool

structure Graph (α : Type) where
  /-- the inner nodes -/
  node : α → Prop
  level : α → Nat
  low : α → α
  high : α → α
  top : α
  bot : α

/-- If variable `i` then `g` else `f`. -/
def choose (i : Nat) (f g : BoolFn) : BoolFn := fun s => if s i then g s else f s

variable {α : Type}

inductive Denotes (G : Graph α) : α → BoolFn → Prop
  | top : Denotes G G.top fun _ => true
  | bot : Denotes G G.bot fun _ => false
  | node {a : α} {f g : BoolFn} : G.node a → Denotes G (G.low a) f → Denotes G (G.high a) g →
      Denotes G a (choose (G.level a) f g)

/-! ## Functions -/

/-- `f` looks only at variables from `l` on. -/
def From (l : Nat) (f : BoolFn) : Prop := ∀ s s' : Nat → Bool, (∀ i, l ≤ i → s i = s' i) → f s = f s'

theorem From.mono {l l' : Nat} {f : BoolFn} (h : From l f) (hl : l' ≤ l) : From l' f :=
  fun s s' hs => h s s' fun i hi => hs i (by omega)

theorem from_choose {l : Nat} {f g : BoolFn} (hf : From (l + 1) f) (hg : From (l + 1) g) :
    From l (choose l f g) := by
  intro s s' hs
  unfold choose
  rw [hs l (Nat.le_refl l)]
  split
  · exact hg s s' fun i hi => hs i (by omega)
  · exact hf s s' fun i hi => hs i (by omega)

theorem from_const (l : Nat) (b : Bool) : From l fun _ => b := fun _ _ _ => rfl

/-- An assignment with variable `l` set. -/
def setVar (s : Nat → Bool) (l : Nat) (b : Bool) : Nat → Bool := fun i => if i = l then b else s i

theorem choose_setVar {l : Nat} {f g : BoolFn} (hf : From (l + 1) f) (hg : From (l + 1) g)
    (s : Nat → Bool) (b : Bool) :
    choose l f g (setVar s l b) = if b then g s else f s := by
  have hs : ∀ i, l + 1 ≤ i → setVar s l b i = s i := fun i hi => if_neg (by omega)
  unfold choose
  rw [show setVar s l b l = b from if_pos rfl, hf _ s hs, hg _ s hs]

/-- The two branches are determined by the function. -/
theorem choose_inj {l : Nat} {f g f' g' : BoolFn} (hf : From (l + 1) f) (hg : From (l + 1) g)
    (hf' : From (l + 1) f') (hg' : From (l + 1) g') (h : choose l f g = choose l f' g') :
    f = f' ∧ g = g' := by
  constructor
  · funext s
    have := congrFun h (setVar s l false)
    rw [choose_setVar hf hg, choose_setVar hf' hg'] at this
    exact this
  · funext s
    have := congrFun h (setVar s l true)
    rw [choose_setVar hf hg, choose_setVar hf' hg'] at this
    exact this

/-- A function that does not look at the variable has equal branches. -/
theorem eq_of_choose_from {l : Nat} {f g : BoolFn} (hf : From (l + 1) f) (hg : From (l + 1) g)
    (h : From (l + 1) (choose l f g)) : f = g := by
  funext s
  have hs : ∀ i, l + 1 ≤ i → setVar s l false i = setVar s l true i := fun i hi => by
    unfold setVar
    rw [if_neg (by omega), if_neg (by omega)]
  have := h _ _ hs
  rw [choose_setVar hf hg, choose_setVar hf hg] at this
  exact this

theorem choose_self (l : Nat) (f : BoolFn) : choose l f f = f := by
  funext s
  unfold choose
  split <;> rfl

/-- Operations on truth values commute with the choice. -/
theorem choose_op (op : Bool → Bool → Bool) (l : Nat) (f f' g g' : BoolFn) :
    (fun s => op (choose l f f' s) (choose l g g' s)) =
      choose l (fun s => op (f s) (g s)) fun s => op (f' s) (g' s) := by
  funext s
  unfold choose
  split <;> rfl

theorem choose_not (l : Nat) (f g : BoolFn) :
    (fun s => !(choose l f g s)) = choose l (fun s => !(f s)) fun s => !(g s) := by
  funext s
  unfold choose
  split <;> rfl

/-! ## Graphs -/

/-- The constants are not inner nodes. -/
structure Graph.Proper (G : Graph α) : Prop where
  top_ne_bot : G.top ≠ G.bot
  top : ¬ G.node G.top
  bot : ¬ G.node G.bot

variable {G G' : Graph α} {S : α → Prop} {a b : α} {f g : BoolFn}

theorem Denotes.top_iff (hG : G.Proper) : Denotes G G.top f ↔ f = fun _ => true := by
  constructor
  · intro h
    generalize ha : G.top = a at h
    cases h with
    | top => rfl
    | bot => exact absurd ha hG.top_ne_bot
    | node hn _ _ => exact absurd (ha ▸ hn) hG.top
  · rintro rfl
    exact .top

theorem Denotes.bot_iff (hG : G.Proper) : Denotes G G.bot f ↔ f = fun _ => false := by
  constructor
  · intro h
    generalize ha : G.bot = a at h
    cases h with
    | top => exact absurd ha.symm hG.top_ne_bot
    | bot => rfl
    | node hn _ _ => exact absurd (ha ▸ hn) hG.bot
  · rintro rfl
    exact .bot

theorem Denotes.node_iff (hG : G.Proper) (ha : G.node a) :
    Denotes G a f ↔ ∃ f₀ f₁, Denotes G (G.low a) f₀ ∧ Denotes G (G.high a) f₁ ∧
      f = choose (G.level a) f₀ f₁ := by
  constructor
  · intro h
    cases h with
    | top => exact absurd ha hG.top
    | bot => exact absurd ha hG.bot
    | node _ h0 h1 => exact ⟨_, _, h0, h1, rfl⟩
  · rintro ⟨f₀, f₁, h0, h1, rfl⟩
    exact .node ha h0 h1

theorem Denotes.functional (hG : G.Proper) (h : Denotes G a f) (h' : Denotes G a g) : f = g := by
  induction h generalizing g with
  | top => exact ((Denotes.top_iff hG).mp h').symm
  | bot => exact ((Denotes.bot_iff hG).mp h').symm
  | node hn _ _ ih0 ih1 =>
    obtain ⟨g₀, g₁, h0, h1, rfl⟩ := (Denotes.node_iff hG hn).mp h'
    rw [ih0 h0, ih1 h1]

/-- A node keeps its function while the nodes below it stay. -/
theorem Denotes.congr (hS : ∀ a, S a → G.node a → S (G.low a) ∧ S (G.high a))
    (htop : G'.top = G.top) (hbot : G'.bot = G.bot)
    (hsame : ∀ a, S a → G.node a →
      G'.node a ∧ G'.level a = G.level a ∧ G'.low a = G.low a ∧ G'.high a = G.high a)
    (ha : S a) (h : Denotes G a f) : Denotes G' a f := by
  induction h with
  | top =>
    rw [← htop]
    exact .top
  | bot =>
    rw [← hbot]
    exact .bot
  | node hn _ _ ih0 ih1 =>
    obtain ⟨h1, h2, h3, h4⟩ := hsame _ ha hn
    obtain ⟨hl, hh⟩ := hS _ ha hn
    rw [← h2]
    refine .node h1 ?_ ?_
    · rw [h3]
      exact ih0 hl
    · rw [h4]
      exact ih1 hh

/-! ## Ordered and reduced diagrams -/

/-- `c` is a constant or lies below level `l`. -/
def Graph.Below (G : Graph α) (l : Nat) (c : α) : Prop := c = G.top ∨ c = G.bot ∨ l < G.level c

/-- `S` is a set of nodes closed under children, whose levels go up, all less than `n`. -/
structure Ordered (G : Graph α) (n : Nat) (S : α → Prop) : Prop extends G.Proper where
  cases : ∀ a, S a → a = G.top ∨ a = G.bot ∨ G.node a
  closed : ∀ a, S a → G.node a → S (G.low a) ∧ S (G.high a)
  bound : ∀ a, S a → G.node a → G.level a < n
  below : ∀ a, S a → G.node a → G.Below (G.level a) (G.low a) ∧ G.Below (G.level a) (G.high a)

/-- No node is redundant, and no two are alike. -/
structure Reduced (G : Graph α) (n : Nat) (S : α → Prop) : Prop extends Ordered G n S where
  ne : ∀ a, S a → G.node a → G.low a ≠ G.high a
  unique : ∀ a b, S a → S b → G.node a → G.node b → G.level a = G.level b → G.low a = G.low b →
    G.high a = G.high b → a = b

/-- `a` is a constant or of level `l` at least. -/
def Graph.AtLeast (G : Graph α) (l : Nat) (a : α) : Prop := G.node a → l ≤ G.level a

variable {n l : Nat}

theorem Ordered.atLeast_child (h : Ordered G n S) {c : α} (hc : G.Below l c) :
    G.AtLeast (l + 1) c := by
  rintro hn
  rcases hc with rfl | rfl | hlt
  · exact absurd hn h.top
  · exact absurd hn h.bot
  · exact hlt

/-- Going down one level at a time, until there are only constants left. -/
theorem Ordered.induct (h : Ordered G n S) {P : Nat → α → Prop} (htop : ∀ l, P l G.top)
    (hbot : ∀ l, P l G.bot)
    (hnode : ∀ l a, S a → G.node a → l ≤ G.level a → P (G.level a + 1) (G.low a) →
      P (G.level a + 1) (G.high a) → P l a) : ∀ l a, S a → G.AtLeast l a → P l a := by
  have key : ∀ d l a, n ≤ l + d → S a → G.AtLeast l a → P l a := by
    intro d
    induction d with
    | zero =>
      intro l a hl ha hla
      rcases h.cases a ha with rfl | rfl | hn
      · exact htop l
      · exact hbot l
      · have := h.bound a ha hn
        have := hla hn
        omega
    | succ d ih =>
      intro l a hl ha hla
      rcases h.cases a ha with rfl | rfl | hn
      · exact htop l
      · exact hbot l
      · obtain ⟨hlow, hhigh⟩ := h.closed a ha hn
        obtain ⟨hb0, hb1⟩ := h.below a ha hn
        have hle := hla hn
        exact hnode l a ha hn hle (ih _ _ (by omega) hlow (h.atLeast_child hb0))
          (ih _ _ (by omega) hhigh (h.atLeast_child hb1))
  exact fun l a => key n l a (by omega)

/-- Every node stands for a function, of the variables from its level on. -/
theorem Ordered.denotes (h : Ordered G n S) (ha : S a) (hl : G.AtLeast l a) :
    ∃ f, Denotes G a f ∧ From l f := by
  refine h.induct (P := fun l a => ∃ f, Denotes G a f ∧ From l f) (fun l => ?_) (fun l => ?_)
    (fun l a _ hn hle h0 h1 => ?_) l a ha hl
  · exact ⟨_, .top, from_const l true⟩
  · exact ⟨_, .bot, from_const l false⟩
  · obtain ⟨f, hf, hff⟩ := h0
    obtain ⟨g, hg, hgf⟩ := h1
    exact ⟨_, .node hn hf hg, (from_choose hff hgf).mono hle⟩

theorem Ordered.from (h : Ordered G n S) (ha : S a) (hl : G.AtLeast l a) (hf : Denotes G a f) :
    From l f := by
  obtain ⟨g, hg, hgl⟩ := h.denotes ha hl
  rwa [hf.functional h.toProper hg]

/-- A constant function is a constant. -/
theorem Reduced.const (h : Reduced G n S) (ha : S a) {c : Bool} (hf : Denotes G a fun _ => c) :
    a = if c then G.top else G.bot := by
  refine h.induct (P := fun _ a => Denotes G a (fun _ => c) → a = if c then G.top else G.bot)
    (fun _ hf => ?_) (fun _ hf => ?_) (fun _ a ha hn _ h0 h1 hf => ?_) 0 a ha
    (fun _ => Nat.zero_le _) hf
  · have := congrFun ((Denotes.top_iff h.toProper).mp hf) fun _ => false
    rw [show c = true from this]
    rfl
  · have := congrFun ((Denotes.bot_iff h.toProper).mp hf) fun _ => false
    rw [show c = false from this]
    rfl
  · obtain ⟨f₀, f₁, hf0, hf1, he⟩ := (Denotes.node_iff h.toProper hn).mp hf
    obtain ⟨hlow, hhigh⟩ := h.closed a ha hn
    obtain ⟨hb0, hb1⟩ := h.below a ha hn
    have hc : choose (G.level a) (fun _ => c) (fun _ => c) = choose (G.level a) f₀ f₁ := by
      rw [choose_self, he]
    obtain ⟨rfl, rfl⟩ := choose_inj (from_const _ c) (from_const _ c)
      (h.from hlow (h.atLeast_child hb0) hf0) (h.from hhigh (h.atLeast_child hb1) hf1) hc
    exact absurd ((h0 hf0).trans (h1 hf1).symm) (h.ne a ha hn)

/-- **Canonicity.**  Two nodes of a reduced diagram that stand for one function are one. -/
theorem Reduced.canonical (h : Reduced G n S) (ha : S a) (hb : S b) (hfa : Denotes G a f)
    (hfb : Denotes G b f) : a = b := by
  -- downwards on a common lower bound of the two levels
  have key : ∀ d l a b f, n ≤ l + d → S a → S b → G.AtLeast l a → G.AtLeast l b →
      Denotes G a f → Denotes G b f → a = b := by
    intro d
    induction d with
    | zero =>
      intro l a b f hl ha hb hla hlb hfa hfb
      have hterm : ∀ c, S c → G.AtLeast l c → c = G.top ∨ c = G.bot := fun c hc hlc => by
        rcases h.cases c hc with hc' | hc' | hn
        · exact Or.inl hc'
        · exact Or.inr hc'
        · have := h.bound c hc hn
          have := hlc hn
          omega
      rcases hterm a ha hla with rfl | rfl
      · obtain rfl := (Denotes.top_iff h.toProper).mp hfa
        exact (h.const (c := true) hb hfb).symm
      · obtain rfl := (Denotes.bot_iff h.toProper).mp hfa
        exact (h.const (c := false) hb hfb).symm
    | succ d ih =>
      intro l a b f hl ha hb hla hlb hfa hfb
      -- a node of level `l` has different branches, so its function looks at `l`
      have hdep : ∀ c, S c → G.node c → G.level c = l → Denotes G c f → ¬ From (l + 1) f := by
        intro c hc hn hlc hfc hfrom
        obtain ⟨f₀, f₁, h0, h1, rfl⟩ := (Denotes.node_iff h.toProper hn).mp hfc
        obtain ⟨hlow, hhigh⟩ := h.closed c hc hn
        obtain ⟨hb0, hb1⟩ := h.below c hc hn
        rw [hlc] at hb0 hb1 hfrom
        have h0' := h.atLeast_child hb0
        have h1' := h.atLeast_child hb1
        obtain rfl := eq_of_choose_from (h.from hlow h0' h0) (h.from hhigh h1' h1) hfrom
        exact h.ne c hc hn (ih (l + 1) _ _ _ (by omega) hlow hhigh h0' h1' h0 h1)
      by_cases hna : G.node a ∧ G.level a = l
      · obtain ⟨hna, hal⟩ := hna
        by_cases hnb : G.node b ∧ G.level b = l
        · obtain ⟨hnb, hbl⟩ := hnb
          obtain ⟨f₀, f₁, h0, h1, rfl⟩ := (Denotes.node_iff h.toProper hna).mp hfa
          obtain ⟨g₀, g₁, k0, k1, he⟩ := (Denotes.node_iff h.toProper hnb).mp hfb
          obtain ⟨hlowa, hhigha⟩ := h.closed a ha hna
          obtain ⟨hlowb, hhighb⟩ := h.closed b hb hnb
          obtain ⟨ha0, ha1⟩ := h.below a ha hna
          obtain ⟨hb0, hb1⟩ := h.below b hb hnb
          rw [hal] at ha0 ha1 he
          rw [hbl] at hb0 hb1 he
          have ha0 := h.atLeast_child ha0
          have ha1 := h.atLeast_child ha1
          have hb0 := h.atLeast_child hb0
          have hb1 := h.atLeast_child hb1
          obtain ⟨rfl, rfl⟩ := choose_inj (h.from hlowa ha0 h0) (h.from hhigha ha1 h1)
            (h.from hlowb hb0 k0) (h.from hhighb hb1 k1) he
          exact h.unique a b ha hb hna hnb (hal.trans hbl.symm)
            (ih (l + 1) _ _ _ (by omega) hlowa hlowb ha0 hb0 h0 k0)
            (ih (l + 1) _ _ _ (by omega) hhigha hhighb ha1 hb1 h1 k1)
        · have hlb' : G.AtLeast (l + 1) b := fun hn => by
            have h1 := hlb hn
            have h2 : G.level b ≠ l := fun h2 => hnb ⟨hn, h2⟩
            omega
          exact absurd (h.from hb hlb' hfb) (hdep a ha hna hal hfa)
      · have hla' : G.AtLeast (l + 1) a := fun hn => by
          have h1 := hla hn
          have h2 : G.level a ≠ l := fun h2 => hna ⟨hn, h2⟩
          omega
        by_cases hnb : G.node b ∧ G.level b = l
        · exact absurd (h.from ha hla' hfa) (hdep b hb hnb.1 hnb.2 hfb)
        · have hlb' : G.AtLeast (l + 1) b := fun hn => by
            have h1 := hlb hn
            have h2 : G.level b ≠ l := fun h2 => hnb ⟨hn, h2⟩
            omega
          exact ih (l + 1) a b f (by omega) ha hb hla' hlb' hfa hfb
  exact key n 0 a b f (by omega) ha hb (fun _ => Nat.zero_le _) (fun _ => Nat.zero_le _) hfa hfb

/-- A node whose function does not look at variables below `l` is not of a level below. -/
theorem Reduced.atLeast (h : Reduced G n S) (ha : S a) (hf : Denotes G a f) (hl : From l f) :
    G.AtLeast l a := by
  intro hn
  by_contra hlt
  obtain ⟨f₀, f₁, h0, h1, rfl⟩ := (Denotes.node_iff h.toProper hn).mp hf
  obtain ⟨hlow, hhigh⟩ := h.closed a ha hn
  obtain ⟨hb0, hb1⟩ := h.below a ha hn
  obtain rfl := eq_of_choose_from (h.from hlow (h.atLeast_child hb0) h0)
    (h.from hhigh (h.atLeast_child hb1) h1) (hl.mono (by omega))
  exact h.ne a ha hn (h.canonical hlow hhigh h0 h1)

/-- A part of a reduced diagram that is closed under children. -/
theorem Reduced.part {S' : α → Prop} (h : Reduced G n S) (hsub : ∀ a, S' a → S a)
    (hcl : ∀ a, S' a → G.node a → S' (G.low a) ∧ S' (G.high a)) (htop : G'.top = G.top)
    (hbot : G'.bot = G.bot) (hG' : G'.Proper) (hsame : ∀ a, S' a → (G'.node a ↔ G.node a) ∧
      G'.level a = G.level a ∧ G'.low a = G.low a ∧ G'.high a = G.high a) : Reduced G' n S' := by
  have hnode : ∀ a, S' a → G'.node a → G.node a := fun a ha => (hsame a ha).1.mp
  have hlevel : ∀ a, S' a → G'.level a = G.level a := fun a ha => (hsame a ha).2.1
  have hlow : ∀ a, S' a → G'.low a = G.low a := fun a ha => (hsame a ha).2.2.1
  have hhigh : ∀ a, S' a → G'.high a = G.high a := fun a ha => (hsame a ha).2.2.2
  have hbelow : ∀ l c, S' c → G.Below l c → G'.Below l c := by
    intro l c hc hb
    unfold Graph.Below
    rw [htop, hbot, hlevel c hc]
    exact hb
  refine ⟨⟨hG', fun a ha => ?_, fun a ha hn => ?_, fun a ha hn => ?_, fun a ha hn => ?_⟩,
    fun a ha hn => ?_, fun a b ha hb hna hnb hl h0 h1 => ?_⟩
  · rw [htop, hbot, (hsame a ha).1]
    exact h.cases a (hsub a ha)
  · rw [hlow a ha, hhigh a ha]
    exact hcl a ha (hnode a ha hn)
  · rw [hlevel a ha]
    exact h.bound a (hsub a ha) (hnode a ha hn)
  · obtain ⟨h2, h3⟩ := hcl a ha (hnode a ha hn)
    obtain ⟨h4, h5⟩ := h.below a (hsub a ha) (hnode a ha hn)
    rw [hlevel a ha, hlow a ha, hhigh a ha]
    exact ⟨hbelow _ _ h2 h4, hbelow _ _ h3 h5⟩
  · rw [hlow a ha, hhigh a ha]
    exact h.ne a (hsub a ha) (hnode a ha hn)
  · rw [hlevel a ha, hlevel b hb] at hl
    rw [hlow a ha, hlow b hb] at h0
    rw [hhigh a ha, hhigh b hb] at h1
    exact h.unique a b (hsub a ha) (hsub b hb) (hnode a ha hna) (hnode b hb hnb) hl h0 h1

theorem From.op {op : Bool → Bool → Bool} {f g : BoolFn} (hf : From l f) (hg : From l g) :
    From l fun s => op (f s) (g s) := by
  intro s s' hs
  show op (f s) (g s) = op (f s') (g s')
  rw [hf s s' hs, hg s s' hs]

end Diagram
