import Tobdd.RoundTrip

/-!
# How often a node is written

`serialize` visits a node once for each path to it, so a node that two paths share is written
twice, and with it all that is below.

    visits_nodup: no node is visited twice if and only if no two paths share one
    writesOnce_iff: ... and then each node has one record, after those of its children
-/

namespace Tobdd

open Resume Diagram

namespace Manager

open World

/-- A path from a node through inner nodes; `true` goes to the high child. -/
inductive Path (g : Consts) (h : Heap) : Bdd → List Bool → Bdd → Prop
  | nil (a : Bdd) : Path g h a [] a
  | low {a b : Bdd} {p : List Bool} (ha : ¬ (a = g.trueId ∨ a = g.falseId))
      (hp : Path g h (h.get a).low p b) : Path g h a (false :: p) b
  | high {a b : Bdd} {p : List Bool} (ha : ¬ (a = g.trueId ∨ a = g.falseId))
      (hp : Path g h (h.get a).high p b) : Path g h a (true :: p) b

/-- `b` is an inner node that can be reached from `a`. -/
def Below (g : Consts) (h : Heap) (a b : Bdd) : Prop :=
  ¬ (b = g.trueId ∨ b = g.falseId) ∧ ∃ p, Path g h a p b

/-- No inner node is reached from `a` along two different paths. -/
def TreeLike (g : Consts) (h : Heap) (a : Bdd) : Prop :=
  ∀ b p q, ¬ (b = g.trueId ∨ b = g.falseId) → Path g h a p b → Path g h a q b → p = q

section
variable {g : Consts} {m : Nat} {w : World} {h : Heap} {a b c : Bdd} {n : Nat} {p q : List Bool}

/-- From a constant there is nowhere to go. -/
theorem Path.const (hp : Path g h a p b) (ha : a = g.trueId ∨ a = g.falseId) : b = a := by
  cases hp with
  | nil => rfl
  | low hn _ => exact absurd ha hn
  | high hn _ => exact absurd ha hn

/-- Paths lead down. -/
theorem Path.down (hn : Now g m w) (hp : Path g w.heap a p b) (ha : (w.store m).Live a) :
    (w.store m).Live b ∧ g.rank w.heap b ≤ g.rank w.heap a := by
  induction hp with
  | nil a => exact ⟨ha, Nat.le_refl _⟩
  | low hin _ ih =>
    obtain ⟨⟨hl, hr⟩, -⟩ := hn.children ha hin
    obtain ⟨h1, h2⟩ := ih hl
    exact ⟨h1, by omega⟩
  | high hin _ ih =>
    obtain ⟨-, hl, hr⟩ := hn.children ha hin
    obtain ⟨h1, h2⟩ := ih hl
    exact ⟨h1, by omega⟩

/-- What is below an inner node: itself, and what is below its children. -/
theorem below_iff (ha : ¬ (a = g.trueId ∨ a = g.falseId)) :
    Below g h a b ↔ b = a ∨ Below g h (h.get a).low b ∨ Below g h (h.get a).high b := by
  constructor
  · rintro ⟨hb, p, hp⟩
    cases hp with
    | nil => exact Or.inl rfl
    | low _ hp => exact Or.inr (Or.inl ⟨hb, _, hp⟩)
    | high _ hp => exact Or.inr (Or.inr ⟨hb, _, hp⟩)
  · rintro (rfl | ⟨hb, p, hp⟩ | ⟨hb, p, hp⟩)
    · exact ⟨ha, [], .nil _⟩
    · exact ⟨hb, _, .low ha hp⟩
    · exact ⟨hb, _, .high ha hp⟩

/-- The nodes that are visited are those below. -/
theorem mem_visits : ∀ n a, Within g h n a → ∀ b, b ∈ visits g h n a ↔ Below g h a b := by
  intro n
  induction n with
  | zero => exact fun a hw => hw.elim
  | succ n ih =>
    intro a hw b
    by_cases ha : a = g.trueId ∨ a = g.falseId
    · rw [visits_const h _ ha]
      refine ⟨fun hb => absurd hb List.not_mem_nil, ?_⟩
      rintro ⟨hb, p, hp⟩
      exact absurd (hp.const ha ▸ ha) hb
    · obtain ⟨hl, hh⟩ := hw ha
      rw [visits_inner h n ha, List.mem_append, List.mem_append, ih _ hl, ih _ hh,
        List.mem_singleton, below_iff ha]
      tauto

/-- Nothing is shared below an inner node if nothing is below either child and nothing below
both. -/
theorem treeLike_iff (hn : Now g m w) (ha : (w.store m).Live a)
    (hin : ¬ (a = g.trueId ∨ a = g.falseId)) :
    TreeLike g w.heap a ↔ TreeLike g w.heap (w.heap.get a).low ∧
      TreeLike g w.heap (w.heap.get a).high ∧
      ∀ b, Below g w.heap (w.heap.get a).low b → ¬ Below g w.heap (w.heap.get a).high b := by
  obtain ⟨⟨hl, hrl⟩, hh, hrh⟩ := hn.children ha hin
  constructor
  · intro ht
    refine ⟨fun b p q hb hp hq => ?_, fun b p q hb hp hq => ?_, fun b hbl hbh => ?_⟩
    · exact (List.cons.inj (ht b _ _ hb (.low hin hp) (.low hin hq))).2
    · exact (List.cons.inj (ht b _ _ hb (.high hin hp) (.high hin hq))).2
    · obtain ⟨hb, p, hp⟩ := hbl
      obtain ⟨-, q, hq⟩ := hbh
      cases ht b _ _ hb (.low hin hp) (.high hin hq)
  · rintro ⟨htl, hth, hdis⟩ b p q hb hp hq
    -- no path comes back to `a`
    have hback : ∀ {c p}, (w.store m).Live c → g.rank w.heap c < g.rank w.heap a →
        ¬ Path g w.heap c p a := fun hc hlt hp => by
      have := (hp.down hn hc).2
      omega
    cases hp with
    | nil =>
      cases hq with
      | nil => rfl
      | low _ hq => exact absurd hq (hback hl hrl)
      | high _ hq => exact absurd hq (hback hh hrh)
    | low _ hp =>
      cases hq with
      | nil => exact absurd hp (hback hl hrl)
      | low _ hq => rw [htl b _ _ hb hp hq]
      | high _ hq => exact absurd ⟨hb, _, hq⟩ (hdis b ⟨hb, _, hp⟩)
    | high _ hp =>
      cases hq with
      | nil => exact absurd hp (hback hh hrh)
      | low _ hq => exact absurd ⟨hb, _, hp⟩ (hdis b ⟨hb, _, hq⟩)
      | high _ hq => rw [hth b _ _ hb hp hq]

/-- **No node is visited twice** if and only if no two paths share one. -/
theorem visits_nodup (hn : Now g m w) : ∀ n a, (w.store m).Live a → Within g w.heap n a →
    ((visits g w.heap n a).Nodup ↔ TreeLike g w.heap a) := by
  intro n
  induction n with
  | zero => exact fun a _ hw => hw.elim
  | succ n ih =>
    intro a ha hw
    by_cases hin : a = g.trueId ∨ a = g.falseId
    · rw [visits_const _ _ hin]
      refine ⟨fun _ b p q hb hp _ => ?_, fun _ => List.nodup_nil⟩
      exact absurd (hp.const hin ▸ hin) hb
    · obtain ⟨hwl, hwh⟩ := hw hin
      obtain ⟨⟨hl, hrl⟩, hh, hrh⟩ := hn.children ha hin
      -- the node itself is not below its children
      have hnot : ∀ c, (w.store m).Live c → g.rank w.heap c < g.rank w.heap a →
          ¬ Below g w.heap c a := fun c hc hlt ⟨_, p, hp⟩ => by
        have := (hp.down hn hc).2
        omega
      rw [visits_inner _ _ hin, treeLike_iff hn ha hin, ← ih _ hl hwl, ← ih _ hh hwh]
      constructor
      · intro hnd
        obtain ⟨h1, -, -⟩ := List.nodup_append.mp hnd
        obtain ⟨h2, h3, h4⟩ := List.nodup_append.mp h1
        exact ⟨h2, h3, fun b hbl hbh => h4 b ((mem_visits n _ hwl b).mpr hbl) b
          ((mem_visits n _ hwh b).mpr hbh) rfl⟩
      · rintro ⟨h1, h2, h3⟩
        refine List.nodup_append.mpr ⟨List.nodup_append.mpr ⟨h1, h2, ?_⟩, List.nodup_singleton a, ?_⟩
        · rintro b hb _ hb' rfl
          exact h3 b ((mem_visits n _ hwl b).mp hb) ((mem_visits n _ hwh b).mp hb')
        · intro b hb c hc hbc
          obtain rfl := hbc.trans (List.mem_singleton.mp hc)
          rcases List.mem_append.mp hb with hb | hb
          · exact hnot _ hl hrl ((mem_visits n _ hwl b).mp hb)
          · exact hnot _ hh hrh ((mem_visits n _ hwh b).mp hb)

/-- Every child of a node of the list that is an inner node comes before the node. -/
def Upwards (g : Consts) (h : Heap) (l : List Bdd) : Prop :=
  ∀ l₁ b l₂, l = l₁ ++ b :: l₂ → ∀ c, c = (h.get b).low ∨ c = (h.get b).high →
    ¬ (c = g.trueId ∨ c = g.falseId) → c ∈ l₁

theorem Upwards.append {l l' : List Bdd} (hl : Upwards g h l) (hl' : Upwards g h l') :
    Upwards g h (l ++ l') := by
  intro l₁ b l₂ he c hc hin
  rcases List.append_eq_append_iff.mp he with ⟨k, rfl, hk⟩ | ⟨k, rfl, hk⟩
  · exact List.mem_append_right _ (hl' k b l₂ hk c hc hin)
  · cases k with
    | nil =>
      rw [List.append_nil] at hl
      exact absurd (hl' [] b l₂ hk.symm c hc hin) List.not_mem_nil
    | cons d k =>
      obtain ⟨rfl, -⟩ := List.cons.inj hk
      exact hl l₁ b k rfl c hc hin

theorem Upwards.concat {l : List Bdd} (hl : Upwards g h l) (ha : ∀ c, c = (h.get a).low ∨
    c = (h.get a).high → ¬ (c = g.trueId ∨ c = g.falseId) → c ∈ l) : Upwards g h (l ++ [a]) := by
  intro l₁ b l₂ he c hc hin
  rcases List.append_eq_append_iff.mp he with ⟨k, rfl, hk⟩ | ⟨k, rfl, hk⟩
  · cases k with
    | nil =>
      obtain ⟨rfl, -⟩ := List.cons.inj hk
      exact List.mem_append_left _ (ha c hc hin)
    | cons d k =>
      obtain ⟨-, hk⟩ := List.cons.inj hk
      cases k <;> cases hk
  · cases k with
    | nil =>
      obtain ⟨rfl, -⟩ := List.cons.inj hk
      rw [List.append_nil] at ha
      exact ha c hc hin
    | cons d k =>
      obtain ⟨rfl, -⟩ := List.cons.inj hk
      exact hl l₁ b k rfl c hc hin

/-- Children are left before their parents. -/
theorem visits_upwards : ∀ n a, Within g h n a → Upwards g h (visits g h n a) := by
  intro n
  induction n with
  | zero => exact fun a hw => hw.elim
  | succ n ih =>
    intro a hw
    by_cases ha : a = g.trueId ∨ a = g.falseId
    · rw [visits_const h _ ha]
      intro l₁ b l₂ he
      cases l₁ <;> cases he
    · obtain ⟨hl, hh⟩ := hw ha
      rw [visits_inner h n ha]
      refine ((ih _ hl).append (ih _ hh)).concat fun c hc hin => ?_
      have hself : Below g h c c := ⟨hin, [], .nil c⟩
      rcases hc with rfl | rfl
      · exact List.mem_append_left _ ((mem_visits n _ hl _).mpr hself)
      · exact List.mem_append_right _ ((mem_visits n _ hh _).mpr hself)

end

/-! ## The records -/

/-- The list has one record for each inner node below `a`, after the records of the children of
the node, and the one of `a` is the last. -/
structure OneEach (g : Consts) (h : Heap) (a : Bdd) (l : List Record) : Prop where
  mem : ∀ r, r ∈ l ↔ ∃ b, Below g h a b ∧ r = recordAt h b
  once : (l.map Record.id).Nodup
  earlier : ∀ l₁ b l₂, Below g h a b → l = l₁ ++ recordAt h b :: l₂ →
    ∀ c, c = (h.get b).low ∨ c = (h.get b).high → ¬ (c = g.trueId ∨ c = g.falseId) →
      recordAt h c ∈ l₁
  last : ¬ (a = g.trueId ∨ a = g.falseId) → l.getLast? = some (recordAt h a)
  count : ∃ M : Finset Bdd, (∀ b, b ∈ M ↔ Below g h a b) ∧ l.length = M.card

/-- Whatever the number of rounds, when there are enough of them `serialize` writes the header
and one record for each inner node below `a`. -/
def WritesOnce (t m : Nat) (w : World) (a : Bdd) : Prop :=
  ∃ N, ∀ n, N ≤ n → ∃ l, run (execWrite (vecWrite Unit) m t) (serialize (w.consts m) a n) (w, []) =
    .ok (.ok (), w, header (w.consts m) ++ l.flatMap Record.bytes) ∧ OneEach (w.consts m) w.heap a l

section
variable {g : Consts} {m t n : Nat} {w : World} {a : Bdd}

theorem Below.live {b : Bdd} (hn : Now g m w) (ha : (w.store m).Live a) (hb : Below g w.heap a b) :
    (w.store m).Live b := by
  obtain ⟨-, p, hp⟩ := hb
  exact (hp.down hn ha).1

/-- The records that are written are one for each node if and only if no two paths share one. -/
theorem records_oneEach (hs : Source g m w) (ha : (w.store m).Live a) (hw : Within g w.heap n a) :
    OneEach g w.heap a (records g w.heap n a) ↔ TreeLike g w.heap a := by
  have hlive : ∀ b ∈ visits g w.heap n a, (w.store m).Live b := fun b hb =>
    ((mem_visits n a hw b).mp hb).live hs.now ha
  have hids : (records g w.heap n a).map Record.id = (visits g w.heap n a).map addr := by
    unfold records
    rw [List.map_map]
    rfl
  rw [← visits_nodup hs.now n a ha hw]
  constructor
  · intro h
    have := h.once
    rw [hids] at this
    exact this.of_map
  · intro hnd
    refine ⟨fun r => ?_, ?_, fun l₁ b l₂ hb he c hc hin => ?_, fun hin => ?_, ?_⟩
    · unfold records
      rw [List.mem_map]
      constructor
      · rintro ⟨b, hb, rfl⟩
        exact ⟨b, (mem_visits n a hw b).mp hb, rfl⟩
      · rintro ⟨b, hb, rfl⟩
        exact ⟨b, (mem_visits n a hw b).mpr hb, rfl⟩
    · rw [hids]
      exact hnd.map_on fun b hb c hc he => hs.addr_inj (hlive b hb) (hlive c hc) he
    · unfold records at he
      obtain ⟨v₁, v₂, hv, rfl, hv₂⟩ := List.map_eq_append_iff.mp he
      obtain ⟨b', v₃, rfl, hb', -⟩ := List.map_eq_cons_iff.mp hv₂
      have hmem : b' ∈ visits g w.heap n a := by
        rw [hv]
        exact List.mem_append_right _ List.mem_cons_self
      obtain rfl := hs.addr_inj (hlive b' hmem) (hb.live hs.now ha) (congrArg Record.id hb')
      exact List.mem_map.mpr ⟨c, visits_upwards n a hw v₁ b' v₃ hv c hc hin, rfl⟩
    · exact records_last w.heap hw (not_or.mp hin).1 (not_or.mp hin).2
    · refine ⟨(visits g w.heap n a).toFinset, fun b => ?_, ?_⟩
      · rw [List.mem_toFinset]
        exact mem_visits n a hw b
      · unfold records
        rw [List.length_map, List.toFinset_card_of_nodup hnd]

/-- What is written determines the records. -/
theorem header_append_inj {l l' : List Record}
    (h : header g ++ l.flatMap Record.bytes = header g ++ l'.flatMap Record.bytes) : l = l' := by
  have hb := List.append_cancel_left h
  rw [← body_records l [] (by decide), ← body_records l' [] (by decide), hb]

theorem writesOnce_iff_treeLike (hs : Source (w.consts m) m w) (ha : (w.store m).Live a) :
    WritesOnce t m w a ↔ TreeLike (w.consts m) w.heap a := by
  constructor
  · rintro ⟨N, hN⟩
    have hlt : (w.consts m).numVars < N + (w.consts m).numVars + 1 := by omega
    obtain ⟨l, hrun, hl⟩ := hN (N + (w.consts m).numVars + 1) (by omega)
    obtain ⟨hrun', hw⟩ := serialize_returns hs.now ha Unit t hlt
    obtain ⟨-, h2⟩ := Prod.mk.inj (Except.ok.inj (hrun.symm.trans hrun'))
    obtain rfl := header_append_inj (Prod.mk.inj h2).2
    exact (records_oneEach hs ha hw).mp hl
  · intro ht
    refine ⟨(w.consts m).numVars + 1, fun n hlt => ?_⟩
    obtain ⟨hrun, hw⟩ := serialize_returns hs.now ha Unit t hlt
    exact ⟨_, hrun, (records_oneEach hs ha hw).mpr ht⟩

end

/-- **Each node is written once**, after its children, if and only if no inner node is reached
along two different paths. -/
theorem Reach.writesOnce_iff {t m : Nat} {w : World} {a : Bdd} (h : Reach t w) (hw : w.Whole)
    (hm : w.made m = true) (hsmall : w.heap.brk ≤ 2 ^ 64) (ha : (w.store m).Live a) :
    WritesOnce t m w a ↔ TreeLike (w.consts m) w.heap a :=
  writesOnce_iff_treeLike (h.source hw hm hsmall) ha

/-- The conjunction of two variables has two inner nodes, each on one path. -/
theorem Reach.writesOnce_iff_errand : WritesOnce 0 0 (errandStates 1).world both ∧
    Below ((errandStates 1).world.consts 0) (errandStates 1).world.heap both x1 := by
  obtain ⟨hr, hw, hm⟩ := errand_reach (by decide : 1 ≤ 5)
  have hn := (hr.resting hw).now hm
  have hboth : ((errandStates 1).world.store 0).Live both := by decide +kernel
  have hin : ∀ a, a = both ∨ a = x1 → ¬ (a = ((errandStates 1).world.consts 0).trueId ∨
      a = ((errandStates 1).world.consts 0).falseId) := by
    rintro a (rfl | rfl) <;> decide +kernel
  constructor
  · rw [Reach.writesOnce_iff hr hw hm (by decide +kernel) hboth]
    have hnum : ((errandStates 1).world.consts 0).numVars < 3 := by decide +kernel
    have hwithin := hn.within 3 both hboth (Nat.lt_of_le_of_lt (rank_le ..) hnum)
    exact (visits_nodup hn 3 both hboth hwithin).mp (by decide +kernel)
  · refine ⟨hin x1 (Or.inr rfl), [true], .high (hin both (Or.inl rfl)) ?_⟩
    have hhigh : ((errandStates 1).world.heap.get both).high = x1 := by decide +kernel
    rw [hhigh]
    exact .nil x1

/-! ### Two variables above a third -/

/-- The conjunction of the last two variables of a new manager of three. -/
def lastTwo : Bdd × World :=
  nodeMade (single 8 8 3) 1 ((single 8 8 3).consts 0).falseId
    (((single 8 8 3).consts 0).vars.getD 2 0)

/-- If the first variable then the last, else both the others. -/
def diamond : Bdd × World :=
  nodeMade lastTwo.2 0 lastTwo.1 (((single 8 8 3).consts 0).vars.getD 2 0)

/-- The last variable is the high child of the node and of its low child. -/
theorem diamond_children : diamond.2.heap.brk ≤ 2 ^ 64 ∧
    (diamond.2.heap.get diamond.1).high = ((single 8 8 3).consts 0).vars.getD 2 0 ∧
    (diamond.2.heap.get diamond.1).low = lastTwo.1 ∧
    (diamond.2.heap.get lastTwo.1).high = ((single 8 8 3).consts 0).vars.getD 2 0 ∧
    (∀ b ∈ [diamond.1, lastTwo.1, ((single 8 8 3).consts 0).vars.getD 2 0],
      b ≠ (diamond.2.consts 0).trueId ∧ b ≠ (diamond.2.consts 0).falseId) := by
  decide +kernel

theorem diamond_reach : Reach 0 diamond.2 ∧ diamond.2.Whole ∧ diamond.2.made 0 = true ∧
    (diamond.2.store 0).Live diamond.1 := by
  obtain ⟨hf, hr⟩ := single_founded 8 8 3 (by decide) (by decide)
  have hm : (single 8 8 3).made 0 = true := by
    rw [hf.made]
    exact Function.update_self ..
  have hw : (single 8 8 3).Whole := fun m hm => by
    have ht := hf.inv.table m hm
    exact ⟨ht.nodes.top, ht.nodes.bot⟩
  obtain ⟨v, hv, hvs⟩ := hf.var 2 (by decide)
  have hget : ((single 8 8 3).consts 0).vars.getD 2 0 = v := by
    rw [List.getD_eq_getElem?_getD, hv]
    rfl
  have hv2 : From 2 fun x => x 2 := fun s s' h => h 2 (Nat.le_refl 2)
  unfold diamond lastTwo
  rw [hget]
  obtain ⟨hr₁, hw₁, hm₁, hcon, hst, hkeep⟩ := nodeMade_reach 1 hr hw hm
    ((hr.resting hw).now hm).bot hvs (from_const _ false) hv2 (by rw [hf.numVars]; decide)
  have hf1 : From 1 (choose (1 : UInt64).toNat (fun _ => false) fun x => x 2) :=
    from_choose (from_const _ false) hv2
  obtain ⟨hr₂, hw₂, hm₂, -, hst₂, -⟩ := nodeMade_reach 0 hr₁ hw₁ hm₁ hst (hkeep _ _ hvs)
    hf1 (hv2.mono (by decide)) (by rw [hcon, hf.numVars]; decide)
  exact ⟨hr₂, hw₂, hm₂, hst₂.1⟩

/-- The last variable is written twice. -/
theorem diamond_twice : Reach 0 diamond.2 ∧ ¬ WritesOnce 0 0 diamond.2 diamond.1 := by
  obtain ⟨hr, hw, hm, ha⟩ := diamond_reach
  obtain ⟨hsmall, h1, h2, h3, hin⟩ := diamond_children
  have hout : ∀ b ∈ [diamond.1, lastTwo.1, ((single 8 8 3).consts 0).vars.getD 2 0],
      ¬ (b = (diamond.2.consts 0).trueId ∨ b = (diamond.2.consts 0).falseId) :=
    fun b hb => not_or.mpr (hin b hb)
  refine ⟨hr, fun honce => ?_⟩
  have ht := (writesOnce_iff_treeLike (hr.source hw hm hsmall) ha).mp honce
  have hp : Path (diamond.2.consts 0) diamond.2.heap diamond.1 [true]
      (((single 8 8 3).consts 0).vars.getD 2 0) := by
    refine .high (hout _ (by simp)) ?_
    rw [h1]
    exact .nil _
  have hq : Path (diamond.2.consts 0) diamond.2.heap diamond.1 [false, true]
      (((single 8 8 3).consts 0).vars.getD 2 0) := by
    refine .low (hout _ (by simp)) ?_
    rw [h2]
    refine .high (hout _ (by simp)) ?_
    rw [h3]
    exact .nil _
  cases ht _ _ _ (hout _ (by simp)) hp hq

end Manager

end Tobdd
