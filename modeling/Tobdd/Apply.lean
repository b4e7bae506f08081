import Tobdd.Reading

/-!
# The recursions

`_not_rec`, `_and_rec`, `_or_rec` and `_comp_rec`, under a read guard: each answers a node
of the table that stands for the operation of the functions of its operands.

The last three are alike after their shortcuts (`wp_binRec`): look into the memo table, go
down on the operand of the smaller level, on both where the levels are equal, and put the
two results together with `make_node`.  The distance to the constants goes down, so that
a bound on it is fuel enough.
-/

namespace Tobdd.Manager

open Resume Diagram World

/-- What a recursion answers: a node that stands for `F`, in a table that has grown. -/
def Answer (g : Consts) (m : Nat) (w : World) (F : BoolFn) (r : Bdd) (w' : World) : Prop :=
  Now g m w' ∧ Reads m w w' ∧ w'.Stands m r F

section
variable {g : Consts} {m t : Nat} {tol : Prop} {w w' : World} {a b : Bdd} {f f' : BoolFn}

theorem Now.top (hn : Now g m w) : w.Stands m g.trueId fun _ => true :=
  hn.stands_iff.mpr ⟨hn.table.nodes.top, .top⟩

theorem Now.bot (hn : Now g m w) : w.Stands m g.falseId fun _ => false :=
  hn.stands_iff.mpr ⟨hn.table.nodes.bot, .bot⟩

theorem Now.functional (hn : Now g m w) (h : w.Stands m a f) (h' : w.Stands m a f') : f = f' :=
  hn.table.nodes.functional (hn.stands_iff.mp h).2 (hn.stands_iff.mp h').2

theorem Now.rank_eq (_ : Now g m w) (hr : Reads m w w') (ha : (w.store m).Live a) :
    g.rank w'.heap a = g.rank w.heap a := by
  unfold Consts.rank
  rw [(hr.node a ha).same.lvl]

/-- What the children of an inner node stand for. -/
structure Split (g : Consts) (m : Nat) (w : World) (a : Bdd) (f f₀ f₁ : BoolFn) : Prop where
  eq : f = choose (w.heap.get a).level.toNat f₀ f₁
  low : w.Stands m (w.heap.get a).low f₀
  high : w.Stands m (w.heap.get a).high f₁
  fromLow : From ((w.heap.get a).level.toNat + 1) f₀
  fromHigh : From ((w.heap.get a).level.toNat + 1) f₁
  bound : (w.heap.get a).level.toNat < g.numVars
  rankLow : g.rank w.heap (w.heap.get a).low < g.rank w.heap a
  rankHigh : g.rank w.heap (w.heap.get a).high < g.rank w.heap a
  rank : g.rank w.heap a = g.numVars - (w.heap.get a).level.toNat

theorem Now.split (hn : Now g m w) (hs : w.Stands m a f) (hT : a ≠ g.trueId) (hF : a ≠ g.falseId) :
    ∃ f₀ f₁, Split g m w a f f₀ f₁ := by
  have ht := hn.table
  have hg := hn.stands_iff.mp hs
  have hnode : (g.graph w.heap).node a := ⟨ht.nodes.has a hg.1, hT, hF⟩
  obtain ⟨f₀, f₁, h0, h1, he⟩ := (Diagram.Denotes.node_iff ht.nodes.proper hnode).mp hg.2
  obtain ⟨hl, hh⟩ := ht.nodes.closed a hg.1 hnode
  obtain ⟨hbl, hbh⟩ := ht.nodes.below a hg.1 hnode
  have ho := ht.nodes.ordered
  have hlv : (w.heap.get a).level.toNat = (w.heap.get a).lvl := (ht.nodes.lvl_eq hg.1).symm
  refine ⟨f₀, f₁, ?_, hn.stands_iff.mpr ⟨hl, h0⟩, hn.stands_iff.mpr ⟨hh, h1⟩, ?_, ?_, ?_, ?_, ?_, ?_⟩
  · rw [hlv]
    exact he
  · rw [hlv]
    exact ho.from hl (ho.atLeast_child hbl) h0
  · rw [hlv]
    exact ho.from hh (ho.atLeast_child hbh) h1
  · rw [hlv]
    exact ht.nodes.bound a hg.1 hnode
  · exact (ht.nodes.child hg.1 (ht.nodes.has _ hl).ne_zero (Or.inl rfl)).2
  · exact (ht.nodes.child hg.1 (ht.nodes.has _ hh).ne_zero (Or.inr rfl)).2
  · rw [hlv]
    exact if_neg fun h => h.elim hT hF

/-- The function of a node looks only at variables from its level on. -/
theorem Split.from_level {f₀ f₁ : BoolFn} (h : Split g m w a f f₀ f₁) :
    From (w.heap.get a).level.toNat f := h.eq ▸ from_choose h.fromLow h.fromHigh

theorem Split.reads {f₀ f₁ : BoolFn} (h : Split g m w a f f₀ f₁) (hn : Now g m w)
    (ha : w.Stands m a f) (hr : Reads m w w') : Split g m w' a f f₀ f₁ := by
  have hnode := hr.node a ha.1
  have hl := hn.stands hr h.low
  have hh := hn.stands hr h.high
  have hra := hn.rank_eq hr ha.1
  have hrl := hn.rank_eq hr h.low.1
  have hrh := hn.rank_eq hr h.high.1
  rcases h with ⟨h1, -, -, h4, h5, h6, h7, h8, h9⟩
  rw [← hnode.level] at h1 h4 h5 h6 h9
  rw [← hnode.low] at hl hrl h7
  rw [← hnode.high] at hh hrh h8
  exact ⟨h1, hl, hh, h4, h5, h6, by omega, by omega, by omega⟩

/-! ## Going down -/

/-- On one operand: `rec` on its children, then `make_node` on the two results. -/
theorem wp_one {rec k : Bdd → Prog ops Bdd} {Q : Bdd → World → Prop} {f₀ f₁ F₀ F₁ : BoolFn}
    (hw : Now g m w) (ha : w.Stands m a f) (hs : Split g m w a f f₀ f₁)
    (h0 : ∀ w', Now g m w' → Reads m w w' →
      wp (reading m t tol) (rec (w.heap.get a).low) (Answer g m w' F₀) w')
    (h1 : ∀ w', Now g m w' → Reads m w w' →
      wp (reading m t tol) (rec (w.heap.get a).high) (Answer g m w' F₁) w')
    (hF0 : From ((w.heap.get a).level.toNat + 1) F₀)
    (hF1 : From ((w.heap.get a).level.toNat + 1) F₁)
    (hk : ∀ r w', Answer g m w (choose (w.heap.get a).level.toNat F₀ F₁) r w' →
      wp (reading m t tol) (k r) Q w') :
    wp (reading m t tol) (do
      let low : Bdd ← step (.acc (.low a))
      let fLow ← rec low
      let high : Bdd ← step (.acc (.high a))
      let fHigh ← rec high
      let level : UInt64 ← step (.acc (.level a))
      let res : Bdd ← step (.makeNode level fLow fHigh)
      k res) Q w := by
  refine wp_low hw ha.1 fun w₁ hw1 hr1 => ?_
  refine wp_seq (h0 w₁ hw1 hr1) ?_
  rintro fLow w₂ ⟨hw2, hr2, hl2⟩
  have hr02 := hr1.trans hr2
  refine wp_high hw2 (hw.stands hr02 ha).1 fun w₃ hw3 hr3 => ?_
  rw [(hr02.node a ha.1).high]
  refine wp_seq (h1 w₃ hw3 (hr02.trans hr3)) ?_
  rintro fHigh w₄ ⟨hw4, hr4, hh4⟩
  have hr24 := hr3.trans hr4
  have hr04 := hr02.trans hr24
  refine wp_level hw4 (hw.stands hr04 ha).1 fun w₅ hw5 hr5 => ?_
  rw [(hr04.node a ha.1).level]
  refine wp_makeNode hw5 (hw2.stands (hr24.trans hr5) hl2) (hw4.stands hr5 hh4) hF0 hF1 hs.bound
    fun r w₆ hw6 hr6 hres => ?_
  exact hk r w₆ ⟨hw6, (hr04.trans hr5).trans hr6, hres⟩

/-- On both operands, which have one level. -/
theorem wp_two {rec : Bdd → Bdd → Prog ops Bdd} {f₀ f₁ F₀ F₁ : BoolFn}
    (hw : Now g m w) (ha : w.Stands m a f) (hb : w.Stands m b f') (hs : Split g m w a f f₀ f₁)
    (h0 : ∀ w', Now g m w' → Reads m w w' → wp (reading m t tol)
      (rec (w.heap.get a).low (w.heap.get b).low) (Answer g m w' F₀) w')
    (h1 : ∀ w', Now g m w' → Reads m w w' → wp (reading m t tol)
      (rec (w.heap.get a).high (w.heap.get b).high) (Answer g m w' F₁) w')
    (hF0 : From ((w.heap.get a).level.toNat + 1) F₀)
    (hF1 : From ((w.heap.get a).level.toNat + 1) F₁) :
    wp (reading m t tol) (do
      let lhsLow : Bdd ← step (.acc (.low a))
      let rhsLow : Bdd ← step (.acc (.low b))
      let fLow ← rec lhsLow rhsLow
      let lhsHigh : Bdd ← step (.acc (.high a))
      let rhsHigh : Bdd ← step (.acc (.high b))
      let fHigh ← rec lhsHigh rhsHigh
      let level : UInt64 ← step (.acc (.level a))
      step (.makeNode level fLow fHigh))
      (Answer g m w (choose (w.heap.get a).level.toNat F₀ F₁)) w := by
  refine wp_low hw ha.1 fun w₁ hw1 hr1 => ?_
  refine wp_low hw1 (hw.stands hr1 hb).1 fun w₂ hw2 hr2 => ?_
  rw [(hr1.node b hb.1).low]
  refine wp_seq (h0 w₂ hw2 (hr1.trans hr2)) ?_
  rintro fLow w₃ ⟨hw3, hr3, hl3⟩
  have hr03 := (hr1.trans hr2).trans hr3
  refine wp_high hw3 (hw.stands hr03 ha).1 fun w₄ hw4 hr4 => ?_
  rw [(hr03.node a ha.1).high]
  have hr04 := hr03.trans hr4
  refine wp_high hw4 (hw.stands hr04 hb).1 fun w₅ hw5 hr5 => ?_
  rw [(hr04.node b hb.1).high]
  refine wp_seq (h1 w₅ hw5 (hr04.trans hr5)) ?_
  rintro fHigh w₆ ⟨hw6, hr6, hh6⟩
  have hr36 := (hr4.trans hr5).trans hr6
  have hr06 := hr03.trans hr36
  refine wp_level hw6 (hw.stands hr06 ha).1 fun w₇ hw7 hr7 => ?_
  rw [(hr06.node a ha.1).level]
  show wp _ (step _ >>= pure) _ _
  refine wp_makeNode hw7 (hw3.stands (hr36.trans hr7) hl3) (hw6.stands hr7 hh6) hF0 hF1 hs.bound
    fun r w₈ hw8 hr8 hres => ?_
  exact ⟨hw8, (hr06.trans hr7).trans hr8, hres⟩

/-! ## not -/

theorem from_not {l : Nat} (h : From l f) : From l fun x => !(f x) := by
  intro s s' hs
  show (!(f s)) = !(f s')
  rw [h s s' hs]

theorem wp_notRec : ∀ n a f w, Now g m w → w.Stands m a f → (tol ∨ g.rank w.heap a < n) →
    wp (reading m t tol) (notRec g n a) (Answer g m w fun x => !(f x)) w := by
  intro n
  induction n with
  | zero => exact fun a f w _ _ hn => wp_spinLoop (hn.resolve_right (Nat.not_lt_zero _))
  | succ n ih =>
    intro a f w hw ha hn
    unfold notRec
    refine wp_ite _ (fun hT => ?_) fun hT => wp_ite _ (fun hF => ?_) fun hF => ?_
    · subst hT
      obtain rfl := hw.functional ha hw.top
      exact ⟨hw, .refl hw.inv hw.made, hw.bot⟩
    · subst hF
      obtain rfl := hw.functional ha hw.bot
      exact ⟨hw, .refl hw.inv hw.made, hw.top⟩
    refine wp_notGet hw ha fun v w₁ hw1 hr1 hv => ?_
    refine wp_ite _ (fun h0 => ⟨hw1, hr1, hv.resolve_left h0⟩) fun h0 => ?_
    have ha1 := hw.stands hr1 ha
    obtain ⟨f₀, f₁, hs⟩ := hw1.split ha1 hT hF
    have hrank := hw.rank_eq hr1 ha.1
    refine wp_one hw1 ha1 hs (fun w' hw' hr' => ?_) (fun w' hw' hr' => ?_)
      (from_not hs.fromLow) (from_not hs.fromHigh) ?_
    · refine ih _ f₀ w' hw' (hw1.stands hr' hs.low) (hn.imp_right fun h => ?_)
      have := hw1.rank_eq hr' hs.low.1
      have := hs.rankLow
      omega
    · refine ih _ f₁ w' hw' (hw1.stands hr' hs.high) (hn.imp_right fun h => ?_)
      have := hw1.rank_eq hr' hs.high.1
      have := hs.rankHigh
      omega
    rintro r w₂ ⟨hw2, hr2, hres⟩
    rw [← choose_not, ← hs.eq] at hres
    refine wp_notInsert hw2 (hw1.stands hr2 ha1) hres fun w₃ hw3 hr3 => ?_
    exact ⟨hw3, (hr1.trans hr2).trans hr3, hw2.stands hr3 hres⟩

/-! ## and, or, comp -/

/-- What follows the shortcuts.  `rec` is the function itself, for operands whose distance to
the constants is less than `d`. -/
theorem wp_binRec {c : Memo} {op : Bool → Bool → Bool} (hop : c.op = some op)
    {rec : Bdd → Bdd → Prog ops Bdd} {d : Nat}
    (hrec : ∀ a b f f' w, Now g m w → w.Stands m a f → w.Stands m b f' →
      (tol ∨ max (g.rank w.heap a) (g.rank w.heap b) < d) →
      wp (reading m t tol) (rec a b) (Answer g m w fun x => op (f x) (f' x)) w)
    (hw : Now g m w) (ha : w.Stands m a f) (hb : w.Stands m b f')
    (haT : a ≠ g.trueId) (haF : a ≠ g.falseId) (hbT : b ≠ g.trueId) (hbF : b ≠ g.falseId)
    (hd : tol ∨ max (g.rank w.heap a) (g.rank w.heap b) < d + 1) :
    wp (reading m t tol) (binRec c rec a b) (Answer g m w fun x => op (f x) (f' x)) w := by
  unfold binRec
  refine wp_get hop hw ha hb fun v w₁ hw1 hr1 hv => ?_
  refine wp_ite _ (fun h0 => ⟨hw1, hr1, hv.resolve_left h0⟩) fun h0 => ?_
  have ha1 := hw.stands hr1 ha
  have hb1 := hw.stands hr1 hb
  refine wp_level hw1 ha1.1 fun w₂ hw2 hr2 => ?_
  refine wp_level hw2 (hw1.stands hr2 hb1).1 fun w₃ hw3 hr3 => ?_
  rw [← ((hr2.trans hr3).node a ha1.1).level, ← (hr3.node b (hw1.stands hr2 hb1).1).level]
  have hr03 := (hr1.trans hr2).trans hr3
  have ha3 := hw.stands hr03 ha
  have hb3 := hw.stands hr03 hb
  rw [← hw.rank_eq hr03 ha.1, ← hw.rank_eq hr03 hb.1] at hd
  obtain ⟨f₀, f₁, hs⟩ := hw3.split ha3 haT haF
  obtain ⟨f₀', f₁', hs'⟩ := hw3.split hb3 hbT hbF
  have hra := hs.rank
  have hrb := hs'.rank
  have h1 := hs.bound
  have h2 := hs'.bound
  -- a child of one of the operands, or an operand itself, later on
  have hlater : ∀ {c w'}, (w₃.store m).Live c → Reads m w₃ w' →
      g.rank w'.heap c = g.rank w₃.heap c := fun hc hr => hw3.rank_eq hr hc
  have hjoin : wp (reading m t tol) (
      if (w₃.heap.get a).level < (w₃.heap.get b).level then do
        let low : Bdd ← step (.acc (.low a))
        let fLow ← rec low b
        let high : Bdd ← step (.acc (.high a))
        let fHigh ← rec high b
        let level : UInt64 ← step (.acc (.level a))
        step (.makeNode level fLow fHigh)
      else if (w₃.heap.get b).level < (w₃.heap.get a).level then do
        let low : Bdd ← step (.acc (.low b))
        let fLow ← rec a low
        let high : Bdd ← step (.acc (.high b))
        let fHigh ← rec a high
        let level : UInt64 ← step (.acc (.level b))
        step (.makeNode level fLow fHigh)
      else do
        let lhsLow : Bdd ← step (.acc (.low a))
        let rhsLow : Bdd ← step (.acc (.low b))
        let fLow ← rec lhsLow rhsLow
        let lhsHigh : Bdd ← step (.acc (.high a))
        let rhsHigh : Bdd ← step (.acc (.high b))
        let fHigh ← rec lhsHigh rhsHigh
        let level : UInt64 ← step (.acc (.level a))
        step (.makeNode level fLow fHigh) : Prog ops Bdd)
      (Answer g m w₃ fun x => op (f x) (f' x)) w₃ := by
    refine wp_ite _ (fun hlt => ?_) fun hnlt => wp_ite _ (fun hlt => ?_) fun hngt => ?_
    · replace hlt := UInt64.lt_iff_toNat_lt.mp hlt
      have hF : (fun x => op (f x) (f' x)) = choose (w₃.heap.get a).level.toNat
          (fun x => op (f₀ x) (f' x)) fun x => op (f₁ x) (f' x) := by
        rw [← choose_op, ← hs.eq, choose_self]
      have hfrom : From ((w₃.heap.get a).level.toNat + 1) f' := hs'.from_level.mono (by omega)
      refine wp_one (k := pure) hw3 ha3 hs (fun w' hw' hr' => ?_)
        (fun w' hw' hr' => ?_) (hs.fromLow.op hfrom) (hs.fromHigh.op hfrom)
        fun r w' h => hF ▸ h
      · refine hrec _ _ _ _ w' hw' (hw3.stands hr' hs.low) (hw3.stands hr' hb3)
          (hd.imp_right fun h => ?_)
        rw [hlater hs.low.1 hr', hlater hb3.1 hr']
        have := hs.rankLow
        omega
      · refine hrec _ _ _ _ w' hw' (hw3.stands hr' hs.high) (hw3.stands hr' hb3)
          (hd.imp_right fun h => ?_)
        rw [hlater hs.high.1 hr', hlater hb3.1 hr']
        have := hs.rankHigh
        omega
    · replace hlt := UInt64.lt_iff_toNat_lt.mp hlt
      have hF : (fun x => op (f x) (f' x)) = choose (w₃.heap.get b).level.toNat
          (fun x => op (f x) (f₀' x)) fun x => op (f x) (f₁' x) := by
        rw [← choose_op, ← hs'.eq, choose_self]
      have hfrom : From ((w₃.heap.get b).level.toNat + 1) f := hs.from_level.mono (by omega)
      refine wp_one (k := pure) hw3 hb3 hs' (fun w' hw' hr' => ?_)
        (fun w' hw' hr' => ?_) (hfrom.op hs'.fromLow) (hfrom.op hs'.fromHigh)
        fun r w' h => hF ▸ h
      · refine hrec _ _ _ _ w' hw' (hw3.stands hr' ha3) (hw3.stands hr' hs'.low)
          (hd.imp_right fun h => ?_)
        rw [hlater ha3.1 hr', hlater hs'.low.1 hr']
        have := hs'.rankLow
        omega
      · refine hrec _ _ _ _ w' hw' (hw3.stands hr' ha3) (hw3.stands hr' hs'.high)
          (hd.imp_right fun h => ?_)
        rw [hlater ha3.1 hr', hlater hs'.high.1 hr']
        have := hs'.rankHigh
        omega
    · -- neither is above the other
      have heq : (w₃.heap.get b).level.toNat = (w₃.heap.get a).level.toNat := by
        rw [UInt64.lt_iff_toNat_lt] at hnlt hngt
        omega
      have hF : (fun x => op (f x) (f' x)) = choose (w₃.heap.get a).level.toNat
          (fun x => op (f₀ x) (f₀' x)) fun x => op (f₁ x) (f₁' x) := by
        have he := hs'.eq
        rw [heq] at he
        rw [← choose_op, ← hs.eq, ← he]
      have hl' := hs'.fromLow
      have hh' := hs'.fromHigh
      rw [heq] at hl' hh'
      rw [hF]
      refine wp_two hw3 ha3 hb3 hs (fun w' hw' hr' => ?_) (fun w' hw' hr' => ?_)
        (hs.fromLow.op hl') (hs.fromHigh.op hh')
      · refine hrec _ _ _ _ w' hw' (hw3.stands hr' hs.low) (hw3.stands hr' hs'.low)
          (hd.imp_right fun h => ?_)
        rw [hlater hs.low.1 hr', hlater hs'.low.1 hr']
        have := hs.rankLow
        have := hs'.rankLow
        omega
      · refine hrec _ _ _ _ w' hw' (hw3.stands hr' hs.high) (hw3.stands hr' hs'.high)
          (hd.imp_right fun h => ?_)
        rw [hlater hs.high.1 hr', hlater hs'.high.1 hr']
        have := hs.rankHigh
        have := hs'.rankHigh
        omega
  refine wp_seq hjoin ?_
  rintro r w₄ ⟨hw4, hr4, hres⟩
  refine wp_insert hop hw4 (hw3.stands hr4 ha3) (hw3.stands hr4 hb3) hres fun w₅ hw5 hr5 => ?_
  exact ⟨hw5, (hr03.trans hr4).trans hr5, hw4.stands hr5 hres⟩

/-- The operands, sorted. -/
theorem pick_cases (a b : Bdd) :
    (pick a b (a ≥ b) = a ∧ pick a b (a < b) = b) ∨ (pick a b (a ≥ b) = b ∧ pick a b (a < b) = a) := by
  unfold pick
  rcases Nat.lt_or_ge a b with h | h
  · left
    have h1 : ¬ (a ≥ b) := Nat.not_le.mpr h
    simp [h, h1]
  · right
    have h1 : ¬ (a < b) := Nat.not_lt.mpr h
    simp [h, h1]

theorem wp_andRec : ∀ n a b f f' w, Now g m w → w.Stands m a f → w.Stands m b f' →
    (tol ∨ max (g.rank w.heap a) (g.rank w.heap b) < n) →
    wp (reading m t tol) (andRec g n a b) (Answer g m w fun x => f x && f' x) w := by
  intro n
  induction n with
  | zero => exact fun a b f f' w _ _ _ hn => wp_spinLoop (hn.resolve_right (Nat.not_lt_zero _))
  | succ n ih =>
    intro a₀ b₀ f₀ f₀' w hw ha₀ hb₀ hn
    unfold andRec
    have key : ∀ a b f f', w.Stands m a f → w.Stands m b f' →
        (tol ∨ max (g.rank w.heap a) (g.rank w.heap b) < n + 1) →
        wp (reading m t tol) (if a = b ∨ b = g.trueId then return a
          else if a = g.falseId ∨ b = g.falseId then return g.falseId
          else if a = g.trueId then return b
          else binRec .and (andRec g n) a b) (Answer g m w fun x => f x && f' x) w := by
      intro a b f f' ha hb hn
      refine wp_ite _ (fun h => ?_) fun h => wp_ite _ (fun h' => ?_) fun h' =>
        wp_ite _ (fun h'' => ?_) fun h'' => ?_
      · refine ⟨hw, .refl hw.inv hw.made, ?_⟩
        rcases h with rfl | rfl
        · obtain rfl := hw.functional ha hb
          simpa using ha
        · obtain rfl := hw.functional hb hw.top
          simpa using ha
      · refine ⟨hw, .refl hw.inv hw.made, ?_⟩
        rcases h' with rfl | rfl
        · obtain rfl := hw.functional ha hw.bot
          simpa using hw.bot
        · obtain rfl := hw.functional hb hw.bot
          simpa using hw.bot
      · subst h''
        obtain rfl := hw.functional ha hw.top
        exact ⟨hw, .refl hw.inv hw.made, by simpa using hb⟩
      · push Not at h h'
        exact wp_binRec rfl ih hw ha hb h'' h'.1 h.2 h'.2 hn
    rcases pick_cases a₀ b₀ with ⟨h1, h2⟩ | ⟨h1, h2⟩
    · simp only [h1, h2]
      exact key a₀ b₀ f₀ f₀' ha₀ hb₀ hn
    · simp only [h1, h2]
      have hcomm : (fun x => f₀ x && f₀' x) = fun x => f₀' x && f₀ x :=
        funext fun x => Bool.and_comm _ _
      rw [hcomm]
      exact key b₀ a₀ f₀' f₀ hb₀ ha₀ (by rwa [max_comm])

theorem wp_orRec : ∀ n a b f f' w, Now g m w → w.Stands m a f → w.Stands m b f' →
    (tol ∨ max (g.rank w.heap a) (g.rank w.heap b) < n) →
    wp (reading m t tol) (orRec g n a b) (Answer g m w fun x => f x || f' x) w := by
  intro n
  induction n with
  | zero => exact fun a b f f' w _ _ _ hn => wp_spinLoop (hn.resolve_right (Nat.not_lt_zero _))
  | succ n ih =>
    intro a₀ b₀ f₀ f₀' w hw ha₀ hb₀ hn
    unfold orRec
    have key : ∀ a b f f', w.Stands m a f → w.Stands m b f' →
        (tol ∨ max (g.rank w.heap a) (g.rank w.heap b) < n + 1) →
        wp (reading m t tol) (if a = b ∨ b = g.falseId then return a
          else if a = g.trueId ∨ b = g.trueId then return g.trueId
          else if a = g.falseId then return b
          else binRec .or (orRec g n) a b) (Answer g m w fun x => f x || f' x) w := by
      intro a b f f' ha hb hn
      refine wp_ite _ (fun h => ?_) fun h => wp_ite _ (fun h' => ?_) fun h' =>
        wp_ite _ (fun h'' => ?_) fun h'' => ?_
      · refine ⟨hw, .refl hw.inv hw.made, ?_⟩
        rcases h with rfl | rfl
        · obtain rfl := hw.functional ha hb
          simpa using ha
        · obtain rfl := hw.functional hb hw.bot
          simpa using ha
      · refine ⟨hw, .refl hw.inv hw.made, ?_⟩
        rcases h' with rfl | rfl
        · obtain rfl := hw.functional ha hw.top
          simpa using hw.top
        · obtain rfl := hw.functional hb hw.top
          simpa using hw.top
      · subst h''
        obtain rfl := hw.functional ha hw.bot
        exact ⟨hw, .refl hw.inv hw.made, by simpa using hb⟩
      · push Not at h h'
        exact wp_binRec rfl ih hw ha hb h'.1 h'' h'.2 h.2 hn
    rcases pick_cases a₀ b₀ with ⟨h1, h2⟩ | ⟨h1, h2⟩
    · simp only [h1, h2]
      exact key a₀ b₀ f₀ f₀' ha₀ hb₀ hn
    · simp only [h1, h2]
      have hcomm : (fun x => f₀ x || f₀' x) = fun x => f₀' x || f₀ x :=
        funext fun x => Bool.or_comm _ _
      rw [hcomm]
      exact key b₀ a₀ f₀' f₀ hb₀ ha₀ (by rwa [max_comm])

/-- One round more than for `and`, for the call of `_not_rec`. -/
theorem wp_compRec : ∀ n a b f f' w, Now g m w → w.Stands m a f → w.Stands m b f' →
    (tol ∨ max (g.rank w.heap a) (g.rank w.heap b) + 1 < n) →
    wp (reading m t tol) (compRec g n a b) (Answer g m w fun x => f x && !(f' x)) w := by
  intro n
  induction n with
  | zero => exact fun a b f f' w _ _ _ hn => wp_spinLoop (hn.resolve_right (Nat.not_lt_zero _))
  | succ n ih =>
    intro a b f f' w hw ha hb hn
    unfold compRec
    refine wp_ite _ (fun h => ?_) fun h => wp_ite _ (fun h' => ?_) fun h' =>
      wp_ite _ (fun h'' => ?_) fun h'' => ?_
    · refine ⟨hw, .refl hw.inv hw.made, ?_⟩
      rcases h with rfl | rfl | rfl
      · obtain rfl := hw.functional ha hb
        simpa using hw.bot
      · obtain rfl := hw.functional ha hw.bot
        simpa using hw.bot
      · obtain rfl := hw.functional hb hw.top
        simpa using hw.bot
    · subst h'
      obtain rfl := hw.functional hb hw.bot
      exact ⟨hw, .refl hw.inv hw.made, by simpa using ha⟩
    · subst h''
      obtain rfl := hw.functional ha hw.top
      have hneg : (fun x : Nat → Bool => true && !(f' x)) = fun x => !(f' x) :=
        funext fun x => Bool.true_and _
      rw [hneg]
      exact wp_notRec n b f' w hw hb (hn.imp_right fun h => by omega)
    · push Not at h
      have hrec := wp_binRec (t := t) (d := n - 1)
        (rfl : Memo.comp.op = some fun x y => x && !y)
        (fun a b f f' w hw ha hb hd => ih a b f f' w hw ha hb (hd.imp_right fun h => by omega)) hw ha
        hb h'' h.2.1 h.2.2 h' (hn.imp_right fun h => by omega)
      exact hrec

end

end Tobdd.Manager
