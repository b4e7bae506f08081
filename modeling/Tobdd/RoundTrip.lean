import Tobdd.Between

/-!
# Streams between managers

What `deserialize` answers to the bytes that `serialize` wrote for a node, for all of them
or for some of the first.

    roundTrip_iff: the node comes back, in any manager with as many variables, if and only if
                   it is not a constant
    Reach.deserialize_unbalanced: both constants have lost a reference then
    Reach.deserialize_cut_off: of the streams that are cut off, those without a whole header
                              are refused, and no others
-/

namespace Tobdd

open Resume Diagram

namespace Manager

open World

section
variable {g : Consts} {m t : Nat} {w : World} {a : Bdd} {f : BoolFn}

/-- The constants stand for the constant functions, and are the only nodes that do. -/
theorem Now.top_iff (hn : Now g m w) (ha : w.Stands m a f) :
    a = g.trueId ↔ f = fun _ => true := by
  have ha' := hn.stands_iff.mp ha
  have htop := hn.stands_iff.mp hn.top
  constructor
  · rintro rfl
    exact hn.table.nodes.functional ha'.2 htop.2
  · rintro rfl
    exact hn.table.canonical ha'.1 htop.1 ha'.2 htop.2

theorem Now.bot_iff (hn : Now g m w) (ha : w.Stands m a f) :
    a = g.falseId ↔ f = fun _ => false := by
  have ha' := hn.stands_iff.mp ha
  have hbot := hn.stands_iff.mp hn.bot
  constructor
  · rintro rfl
    exact hn.table.nodes.functional ha'.2 hbot.2
  · rintro rfl
    exact hn.table.canonical ha'.1 hbot.1 ha'.2 hbot.2

/-- A node for a function that has both values is not a constant. -/
theorem Now.inner (hn : Now g m w) (ha : w.Stands m a f) (s s' : Nat → Bool) (h1 : f s = true)
    (h0 : f s' = false) : a ≠ g.trueId ∧ a ≠ g.falseId := by
  constructor
  · intro h
    rw [(hn.top_iff ha).mp h] at h0
    cases h0
  · intro h
    rw [(hn.bot_iff ha).mp h] at h1
    cases h1

theorem Reach.source (h : Reach t w) (hw : w.Whole) (hm : w.made m = true)
    (hsmall : w.heap.brk ≤ 2 ^ 64) : Source (w.consts m) m w :=
  ⟨(h.resting hw).now hm, hsmall⟩

/-- With enough rounds `serialize` has written the stream of the node. -/
theorem serialize_returns (hn : Now g m w) (ha : (w.store m).Live a) (ε : Type) (t : Nat) {n : Nat}
    (h : g.numVars < n) : run (execWrite (vecWrite ε) m t) (serialize g a n) (w, []) =
      .ok (.ok (), w, stream g w.heap n a) ∧ Within g w.heap n a :=
  (run_serialize hn ha ε t n).resolve_right fun hs => hs.2 h

/-- ... and `deserialize` has read it. -/
theorem deserialize_returns {debug : Bool} {σ ε : Type} {R : IoRead σ ε} {content : σ → List UInt8}
    (hR : Delivers R content) (hn : Now g m w) (hl : w.Idle m) {x : σ}
    (hleg : Legible debug g.numVars (content x)) (hf : Describes (content x) f) (t : Nat) {n : Nat}
    (h : (content x).length < n) :
    ∃ h w' x', run (execRead R m t) (deserialize debug g n) (w, x) = .ok (.ok h, w', x') ∧
      ReadBack m t w w' h f ∧ ∃ map,
        Means (Meaning.after (.start (word (content x) 0) (word (content x) 1))
          (body ((content x).drop 16))) m w' map ∧
        Dropped (.start (word (content x) 0) (word (content x) 1)) (body ((content x).drop 16)) m w
          w' map :=
  (run_deserialize hR hn hl hleg hf t n).resolve_right fun hs => hs.2 h

/-- A node for a function is the only one. -/
theorem ReadBack.only {w' : World} {h b : Bdd} (hb : ReadBack m t w w' h f)
    (hm : w.made m = true) (hs : w'.Stands m b f) : b = h :=
  (hb.inv.table m (by rw [hb.made]; exact hm)).canonical hs.1 hb.stands.1 hs.2 hb.stands.2

end

/-! ## There and back -/

/-- What `serialize` writes for the node `a` of manager `m₁` makes `deserialize` answer with
the node of manager `m₂` for the function `f`, whichever reader delivers it. -/
def RoundTrip (t₁ m₁ : Nat) (w₁ : World) (a : Bdd) (t₂ m₂ : Nat) (w₂ : World) (f : BoolFn) : Prop :=
  ∃ N, ∀ n, N ≤ n → ∃ bytes,
    run (execWrite (vecWrite Unit) m₁ t₁) (serialize (w₁.consts m₁) a n) (w₁, []) =
      .ok (.ok (), w₁, bytes) ∧
    ∀ (debug : Bool) (σ ε : Type) (R : IoRead σ ε) (content : σ → List UInt8) (x : σ),
      Delivers R content → content x = bytes → ∃ K, ∀ k, K ≤ k → ∃ h w' x',
        run (execRead R m₂ t₂) (deserialize debug (w₂.consts m₂) k) (w₂, x) = .ok (.ok h, w', x') ∧
        w'.Stands m₂ h f ∧ ∀ b, w'.Stands m₂ b f → b = h

section
variable {t₁ m₁ t₂ m₂ : Nat} {w₁ w₂ : World} {a : Bdd} {f : BoolFn}

/-- A node that is not a constant comes back. -/
theorem roundTrip_inner (hs : Source (w₁.consts m₁) m₁ w₁) (ha : w₁.Stands m₁ a f)
    (hT : a ≠ (w₁.consts m₁).trueId) (hF : a ≠ (w₁.consts m₁).falseId)
    (hn : Now (w₂.consts m₂) m₂ w₂) (hl : w₂.Idle m₂)
    (hnum : (w₁.consts m₁).numVars = (w₂.consts m₂).numVars) :
    RoundTrip t₁ m₁ w₁ a t₂ m₂ w₂ f := by
  refine ⟨(w₁.consts m₁).numVars + 1, fun n hlt => ?_⟩
  obtain ⟨hrun, hw⟩ := serialize_returns hs.now ha.1 Unit t₁ (n := n) hlt
  refine ⟨_, hrun, fun debug σ ε R content x hR hx => ⟨(content x).length + 1, fun k hk => ?_⟩⟩
  have hleg := stream_legible debug hs hw ha
  have hdes := stream_describes hs hw ha hT hF
  rw [← hx] at hleg hdes
  rw [hnum] at hleg
  obtain ⟨h, w', x', hrun', hb, -⟩ := deserialize_returns hR hn hl hleg hdes t₂ hk
  exact ⟨h, w', x', hrun', hb.stands, fun b hs => hb.only hn.made hs⟩

/-- A constant does not: its stream has no record. -/
theorem roundTrip_const (hn₁ : Now (w₁.consts m₁) m₁ w₁) (ha : (w₁.store m₁).Live a)
    (hc : a = (w₁.consts m₁).trueId ∨ a = (w₁.consts m₁).falseId)
    (hn : Now (w₂.consts m₂) m₂ w₂) (hl : w₂.Idle m₂) : ¬ RoundTrip t₁ m₁ w₁ a t₂ m₂ w₂ f := by
  rintro ⟨N, h⟩
  obtain ⟨bytes, hrun, h⟩ := h (N + (w₁.consts m₁).numVars + 1) (by omega)
  obtain ⟨hrun', -⟩ := serialize_returns hn₁ ha Unit t₁ (n := N + (w₁.consts m₁).numVars + 1)
    (by omega)
  obtain ⟨-, h2⟩ := Prod.mk.inj (Except.ok.inj (hrun.symm.trans hrun'))
  obtain rfl : bytes = header (w₁.consts m₁) := by
    rw [← stream_const w₁.heap hc]
    exact (Prod.mk.inj h2).2
  obtain ⟨K, hK⟩ := h true _ Unit (sliceRead ()) id _ (sliceRead_delivers ()) rfl
  obtain ⟨r, w', x', hr, -⟩ := hK K (Nat.le_refl K)
  obtain ⟨e, he⟩ := run_deserialize_empty (sliceRead_delivers ()) hn hl
    (x := header (w₁.consts m₁)) (by rw [id, header_length]) (by rw [id, header_length]; decide) true t₂ K
  cases he.symm.trans hr

/-- **A node comes back** from another manager, in any state of the two, if and only if it is not
a constant. -/
theorem roundTrip_iff (h₁ : Reach t₁ w₁) (hw₁ : w₁.Whole) (hm₁ : w₁.made m₁ = true)
    (hsmall : w₁.heap.brk ≤ 2 ^ 64) (ha : w₁.Stands m₁ a f) (h₂ : Reach t₂ w₂) (hw₂ : w₂.Whole)
    (hm₂ : w₂.made m₂ = true) (hnum : (w₁.consts m₁).numVars = (w₂.consts m₂).numVars) :
    RoundTrip t₁ m₁ w₁ a t₂ m₂ w₂ f ↔
      a ≠ (w₁.consts m₁).trueId ∧ a ≠ (w₁.consts m₁).falseId := by
  have hs := h₁.source hw₁ hm₁ hsmall
  have hr := h₂.resting hw₂
  constructor
  · intro h
    by_contra hc
    refine roundTrip_const hs.now ha.1 ?_ (hr.now hm₂) (hr.idle m₂ hm₂) h
    exact or_iff_not_and_not.mpr hc
  · rintro ⟨hT, hF⟩
    exact roundTrip_inner hs ha hT hF (hr.now hm₂) (hr.idle m₂ hm₂) hnum

end

/-- A manager of two variables, just made, and the node of its first variable. -/
theorem single_source : Reach 0 (single 8 8 2) ∧ (single 8 8 2).Whole ∧
    (single 8 8 2).made 0 = true ∧ (single 8 8 2).heap.brk ≤ 2 ^ 64 ∧
    ∃ a, (single 8 8 2).Stands 0 a (fun x => x 0) ∧ a ≠ ((single 8 8 2).consts 0).trueId ∧
      a ≠ ((single 8 8 2).consts 0).falseId := by
  obtain ⟨hr, hw, hm⟩ := single_ready 8 8 2 (by decide) (by decide)
  obtain ⟨hf, -⟩ := single_founded 8 8 2 (by decide) (by decide)
  have hn : Now ((single 8 8 2).consts 0) 0 (single 8 8 2) := ⟨hf.inv, hm, rfl⟩
  obtain ⟨a, -, ha⟩ := hf.var 0 (by decide)
  refine ⟨hr, hw, hm, by decide +kernel, a, ha, fun h => ?_, fun h => ?_⟩
  · exact absurd (congrFun ((hn.top_iff ha).mp h) fun _ => false) (by decide)
  · exact absurd (congrFun ((hn.bot_iff ha).mp h) fun _ => true) (by decide)

theorem roundTrip_single : ∃ a, RoundTrip 0 0 (single 8 8 2) a 0 0 (single 8 8 2) fun x => x 0 := by
  obtain ⟨hr, hw, hm, hsmall, a, ha, hT, hF⟩ := single_source
  exact ⟨a, (roundTrip_iff hr hw hm hsmall ha hr hw hm rfl).mpr ⟨hT, hF⟩⟩

/-- The constant 1 of that manager does not come back. -/
theorem no_roundTrip_true : ¬ RoundTrip 0 0 (single 8 8 2) ((single 8 8 2).consts 0).trueId 0 0
    (single 8 8 2) fun _ => true := by
  obtain ⟨hr, hw, hm, -⟩ := single_source
  have hi := hr.resting hw
  exact roundTrip_const (hi.now hm) (hi.now hm).top.1 (Or.inl rfl) (hi.now hm) (hi.idle 0 hm)

/-! ## The references after that -/

/-- The references of the nodes of manager `m` are what they were, but for one more to `h`. -/
structure Balanced (m : Nat) (w w' : World) (h : Bdd) : Prop where
  old : ∀ a, (w.store m).Live a →
    (w'.heap.get a).refCnt = (w.heap.get a).refCnt + if a = h then 1 else 0
  new : ∀ a, (w'.store m).Live a → ¬ (w.store m).Live a →
    (w'.heap.get a).refCnt = if a = h then 1 else 0

/-- The count of a value that only one key has. -/
theorem count_values {map : IdMap} (id : UInt64) {b : Bdd}
    (h : ∀ i, map.lookup i = some b ↔ i = id) :
    (map.entries.map Sigma.snd).count b = 1 := by
  have hmem : ∀ s ∈ map.entries.filter (fun s => s.2 == b), s = ⟨id, b⟩ := by
    rintro ⟨i, c⟩ hs
    obtain ⟨hmem, hc⟩ := List.mem_filter.mp hs
    obtain rfl : c = b := beq_iff_eq.mp hc
    rw [(h i).mp (AList.mem_lookup_iff.mpr hmem)]
  have hin : (⟨id, b⟩ : Sigma fun _ : UInt64 => Bdd) ∈ map.entries.filter fun s => s.2 == b :=
    List.mem_filter.mpr ⟨AList.mem_lookup_iff.mp ((h id).mpr rfl), beq_self_eq_true b⟩
  have hnd : (map.entries.filter fun s => s.2 == b).Nodup := map.nodupKeys.nodup.filter _
  rw [List.count_eq_countP, List.countP_map, List.countP_eq_length_filter]
  refine Nat.le_antisymm ?_ (List.length_pos_of_mem hin)
  have hrep := List.eq_replicate_of_mem hmem
  rw [hrep] at hnd
  exact List.nodup_replicate.mp hnd

section
variable {g : Consts} {m t : Nat} {w : World} {σ ε : Type} {R : IoRead σ ε}
  {content : σ → List UInt8} {x : σ}

/-- The records of an inner node are not about the constants, and of the ids only that of the
constant is known for it. -/
theorem serialized_const {g' : Consts} {m' n : Nat} {w' : World} {a : Bdd} {f : BoolFn}
    (hs : Source g' m' w') (hw : Within g' w'.heap n a) (ha : w'.Stands m' a f) {c : Bool} :
    some (fun _ => c) ∉ values (.start (addr g'.falseId) (addr g'.trueId)) (records g' w'.heap n a) ∧
    ∀ id, Meaning.after (.start (addr g'.falseId) (addr g'.trueId)) (records g' w'.heap n a) id =
      some (fun _ => c) ↔ id = if c then addr g'.trueId else addr g'.falseId := by
  obtain ⟨hT, hF⟩ := start_known (addr g'.falseId) (addr g'.trueId)
  obtain ⟨-, hright, -, hknown, hvals⟩ := records_readable true hs n a f _ hw ha (start_right hs) hT hF
  -- the only node for the function
  have honly : ∀ b, w'.Stands m' b (fun _ => c) → b = if c then g'.trueId else g'.falseId := by
    intro b hb
    cases c with
    | true => exact (hs.now.top_iff hb).mpr rfl
    | false => exact (hs.now.bot_iff hb).mpr rfl
  refine ⟨fun hmem => ?_, fun id => ⟨fun hid => ?_, fun hid => ?_⟩⟩
  · obtain ⟨b, f', he, hb, hbT, hbF⟩ := hvals _ hmem
    obtain rfl := Option.some.inj he
    have := honly b hb
    cases c with
    | true => exact hbT this
    | false => exact hbF this
  · obtain ⟨b, hb, rfl⟩ := hright id _ hid
    rw [honly b hb]
    cases c <;> rfl
  · have hne : Meaning.after (.start (addr g'.falseId) (addr g'.trueId)) (records g' w'.heap n a) id ≠
        none := by
      rw [hid]
      cases c with
      | true => exact hknown _ hT
      | false => exact hknown _ hF
    obtain ⟨f', hf'⟩ := Option.ne_none_iff_exists'.mp hne
    obtain ⟨b, hb, he⟩ := hright id f' hf'
    have hbc : b = if c then g'.trueId else g'.falseId := by
      have hlive : (w'.store m').Live (if c then g'.trueId else g'.falseId) := by
        cases c with
        | true => exact hs.now.top.1
        | false => exact hs.now.bot.1
      refine hs.addr_inj hb.1 hlive (he.trans (hid.trans ?_))
      cases c <;> rfl
    rw [hf']
    subst hbc
    cases c with
    | true => rw [(hs.now.top_iff hb).mp rfl]
    | false => rw [(hs.now.bot_iff hb).mp rfl]

theorem sub_one_ne (n : UInt64) : n - 1 ≠ n + 0 := by
  intro h
  have := congrArg UInt64.toNat h
  simp only [UInt64.toNat_sub, UInt64.toNat_one, UInt64.toNat_add, UInt64.toNat_zero] at this
  omega

/-- **Both constants lose a reference** when the stream of an inner node is read. -/
theorem run_unbalanced (hR : Delivers R content) (hn : Now g m w) (hl : w.Idle m)
    (hs : Serialized g.numVars (content x)) (debug : Bool) (t : Nat) {n : Nat} (hlt : (content x).length < n) :
    ∃ h w' x', run (execRead R m t) (deserialize debug g n) (w, x) = .ok (.ok h, w', x') ∧
      (w'.heap.get g.trueId).refCnt = (w.heap.get g.trueId).refCnt - 1 ∧
      (w'.heap.get g.falseId).refCnt = (w.heap.get g.falseId).refCnt - 1 ∧
      ¬ Balanced m w w' h := by
  obtain ⟨g', m', k, v, a, f, hsrc, hnum, ha, hT, hF, hw, hx⟩ := hs.stream
  have hleg := stream_legible debug hsrc hw ha
  have hdes := stream_describes hsrc hw ha hT hF
  obtain ⟨hw0, hw1⟩ := header_word g' ((records g' v.heap k a).flatMap Record.bytes)
  have hbody := stream_body g' v.heap k a
  rw [hnum] at hleg
  rw [← hx] at hleg hdes hbody
  have h0 : word (content x) 0 = addr g'.falseId := by
    rw [hx]
    exact hw0
  have h1 : word (content x) 1 = addr g'.trueId := by
    rw [hx]
    exact hw1
  obtain ⟨h, w', x', hrun, hb, map, hmeans, hdrop⟩ := deserialize_returns hR hn hl hleg hdes t hlt
  rw [hbody, h0, h1] at hmeans hdrop
  have hmade : w'.made m = true := by
    rw [hb.made]
    exact hn.made
  have hcon : w'.consts m = g := (hb.onward.consts m hn.made).trans hn.consts
  have hn' : Now g m w' := ⟨hb.inv, hmade, hcon⟩
  -- the constant `c` is the value of one id
  have key : ∀ c : Bool, ∀ b, w'.Stands m b (fun _ => c) →
      (w'.heap.get b).refCnt = (w.heap.get b).refCnt - 1 := by
    intro c b hbs
    obtain ⟨hno, hone⟩ := serialized_const hsrc hw ha (c := c)
    have hcount : (map.entries.map Sigma.snd).count b = 1 := by
      refine count_values (if c then addr g'.trueId else addr g'.falseId) fun i => ?_
      rw [← hone i]
      constructor
      · intro hi
        obtain ⟨f', hf', hst⟩ := hmeans.of_lookup hi
        rw [hf', hn'.table.nodes.functional (hn'.stands_iff.mp hst).2 (hn'.stands_iff.mp hbs).2]
      · intro hi
        obtain ⟨b', hb', hst⟩ := hmeans.known hi
        rw [hb', hn'.table.canonical hst.1 hbs.1 (hn'.stands_iff.mp hst).2 (hn'.stands_iff.mp hbs).2]
    have := hdrop b fun f' hf' hmem => hno (by
      rwa [hn'.table.nodes.functional (hn'.stands_iff.mp hbs).2 (hn'.stands_iff.mp hf').2])
    rw [this, hcount]
    rfl
  have htop := key true g.trueId hn'.top
  refine ⟨h, w', x', hrun, htop, key false g.falseId hn'.bot, fun hbal => ?_⟩
  have hne : g.trueId ≠ h := by
    rintro rfl
    exact hT ((hsrc.now.top_iff ha).mpr ((hn'.top_iff hb.stands).mp rfl))
  have hold := hbal.old g.trueId hn.top.1
  rw [htop, if_neg hne] at hold
  exact sub_one_ne _ hold

end

/-- **The references are never balanced** after the stream of an inner node was read. -/
theorem Reach.deserialize_unbalanced {t m : Nat} {w : World} {σ ε : Type} {R : IoRead σ ε}
    {content : σ → List UInt8} {x : σ} (h : Reach t w) (hw : w.Whole) (hm : w.made m = true)
    (debug : Bool) (hR : Delivers R content) (hs : Serialized (w.consts m).numVars (content x)) :
    ∃ N, ∀ n, N ≤ n → ∃ r w' x',
      run (execRead R m t) (deserialize debug (w.consts m) n) (w, x) = .ok (.ok r, w', x') ∧
      ¬ Balanced m w w' r := by
  have hr := h.resting hw
  refine ⟨(content x).length + 1, fun n hn => ?_⟩
  obtain ⟨r, w', x', hrun, -, -, hno⟩ := run_unbalanced hR (hr.now hm) (hr.idle m hm) hs debug t hn
  exact ⟨r, w', x', hrun, hno⟩

theorem single_numVars : ((single 8 8 2).consts 0).numVars = 2 :=
  (single_founded 8 8 2 (by decide) (by decide)).1.numVars

/-- The stream of the variable `0` of a new manager. -/
theorem single_serialized : ∃ bytes, Serialized 2 bytes := by
  obtain ⟨hr, hw, hm, hsmall, a, ha, hT, hF⟩ := single_source
  have hs := hr.source hw hm hsmall
  obtain ⟨hrun, -⟩ := serialize_returns hs.now ha.1 Unit 0 (Nat.lt_succ_self _)
  exact ⟨_, Unit, _, 0, 0, _, single 8 8 2, a, hs, single_numVars, ha.1, hT, hF, _, hrun⟩

theorem Reach.deserialize_unbalanced_single : ∃ bytes n r w' x',
    run (execRead (sliceRead ()) 0 0) (deserialize true ((single 8 8 2).consts 0) n)
      (single 8 8 2, bytes) = .ok (.ok r, w', x') ∧ ¬ Balanced 0 (single 8 8 2) w' r := by
  obtain ⟨hr, hw, hm, -⟩ := single_source
  obtain ⟨bytes, hb⟩ := single_serialized
  rw [← single_numVars] at hb
  obtain ⟨N, hN⟩ := Reach.deserialize_unbalanced (x := bytes) hr hw hm true
    (sliceRead_delivers ()) hb
  obtain ⟨r, w', x', hrun, hno⟩ := hN N (Nat.le_refl N)
  exact ⟨bytes, N, r, w', x', hrun, hno⟩

/-- The constants of the new manager after its own stream of the variable `0` was read. -/
theorem deserialize_drops : ∃ bytes n r w' x', Serialized 2 bytes ∧
    run (execRead (sliceRead ()) 0 0) (deserialize true ((single 8 8 2).consts 0) n)
      (single 8 8 2, bytes) = .ok (.ok r, w', x') ∧
    (w'.heap.get ((single 8 8 2).consts 0).trueId).refCnt = 0 ∧
    ¬ Balanced 0 (single 8 8 2) w' r := by
  obtain ⟨hr, hw, hm, -⟩ := single_source
  obtain ⟨bytes, hb⟩ := single_serialized
  obtain ⟨hf, -⟩ := single_founded 8 8 2 (by decide) (by decide)
  have hi := hr.resting hw
  have hn := hi.now hm
  have hb' := hb
  rw [← single_numVars] at hb'
  obtain ⟨r, w', x', hrun, htop, -, hno⟩ := run_unbalanced (x := bytes)
    (sliceRead_delivers ()) hn (hi.idle 0 hm) hb' true 0 (n := bytes.length + 1) (Nat.lt_succ_self _)
  refine ⟨bytes, bytes.length + 1, r, w', x', hb, hrun, ?_, hno⟩
  rw [htop, hf.refs _ hn.top.1]
  rfl

/-! ## Streams that are cut off -/

/-- **A stream that is cut off** is refused if and only if the cut is in the header, whichever
reader delivers what is left. -/
theorem Reach.deserialize_cut_off {t m : Nat} {w : World} {σ ε : Type} {R : IoRead σ ε}
    {content : σ → List UInt8} (h : Reach t w) (hw : w.Whole) (hm : w.made m = true)
    (debug : Bool) (hR : Delivers R content) : ∀ bytes, Serialized (w.consts m).numVars bytes →
      ∀ x, content x <+: bytes → content x ≠ bytes →
      ((∃ N, ∀ n, N ≤ n → ∃ e y,
        run (execRead R m t) (deserialize debug (w.consts m) n) (w, x) = .ok (.error e, y)) ↔
        (content x).length < 16) := by
  intro bytes _ x _ _
  have hl := (h.resting hw).idle m hm
  constructor
  · rintro ⟨N, hN⟩
    obtain ⟨e, y, hrun⟩ := hN N (Nat.le_refl N)
    by_contra hlen
    exact run_deserialize_accepts hR hl (Nat.le_of_not_lt hlen) _ _ t N hrun
  · intro hlen
    refine ⟨0, fun n _ => ?_⟩
    obtain ⟨e, x', hrun⟩ := run_deserialize_short hR hl hlen debug (w.consts m) t n
    exact ⟨e, _, hrun⟩

theorem Reach.deserialize_cut_off_single : ∃ bytes, Serialized 2 bytes ∧ ∃ N, ∀ n, N ≤ n → ∃ e y,
    run (execRead (sliceRead ()) 0 0) (deserialize true ((single 8 8 2).consts 0) n)
      (single 8 8 2, bytes.take 15) = .ok (.error e, y) := by
  obtain ⟨hr, hw, hm, -⟩ := single_source
  obtain ⟨bytes, hb⟩ := single_serialized
  have hb' := hb
  rw [← single_numVars] at hb'
  have hlen : (bytes.take 15).length = 15 := by
    rw [List.length_take]
    have := (hb.legible.1 true).header
    omega
  have hne : bytes.take 15 ≠ bytes := by
    intro he
    rw [he] at hlen
    have := (hb.legible.1 true).header
    omega
  refine ⟨bytes, hb, (Reach.deserialize_cut_off hr hw hm true (sliceRead_delivers ())
    bytes hb' (bytes.take 15) (List.take_prefix _ _) hne).mpr ?_⟩
  rw [id, hlen]
  decide

/-- The stream of a node whose low child is a constant starts with the stream of the other. -/
theorem stream_starts {g : Consts} {h : Heap} {n : Nat} {a : Bdd} (ha : a ≠ g.trueId ∧ a ≠ g.falseId)
    (hlow : (h.get a).low = g.trueId ∨ (h.get a).low = g.falseId) :
    stream g h (n + 1) a = stream g h n (h.get a).high ++ (recordAt h a).bytes := by
  unfold stream records
  rw [visits_inner _ _ (not_or.mpr ha), visits_const _ _ hlow]
  simp only [List.nil_append, List.map_append, List.map_singleton, List.flatMap_append,
    List.flatMap_singleton, List.append_assoc]

/-- Such a stream, cut off before the last record, is answered with the other node. -/
theorem deserialize_high (debug : Bool) {t m : Nat} {w : World} {a : Bdd} {f f' : BoolFn}
    (hs : Source (w.consts m) m w) (hl : w.Idle m) (ha : w.Stands m a f)
    (hin : a ≠ (w.consts m).trueId ∧ a ≠ (w.consts m).falseId)
    (hlow : (w.heap.get a).low = (w.consts m).falseId) (hb : w.Stands m (w.heap.get a).high f')
    (hin' : (w.heap.get a).high ≠ (w.consts m).trueId ∧
      (w.heap.get a).high ≠ (w.consts m).falseId) :
    ∃ (bytes p : List UInt8) (n k : Nat) (w' : World) (h : Bdd) (x' : List UInt8),
      run (execWrite (vecWrite Unit) m t) (serialize (w.consts m) a n) (w, []) =
        .ok (.ok (), w, bytes) ∧ p <+: bytes ∧ p ≠ bytes ∧
      run (execRead (sliceRead ()) m t) (deserialize debug (w.consts m) k) (w, p) =
        .ok (.ok h, w', x') ∧ w'.Stands m h f' := by
  obtain ⟨hrun, hwa⟩ := serialize_returns hs.now ha.1 Unit t (n := (w.consts m).numVars + 1)
    (Nat.lt_succ_self _)
  have hwb := (hwa (not_or.mpr hin)).2
  rw [stream_starts hin (Or.inr hlow)] at hrun
  have hleg := stream_legible debug hs hwb hb
  have hdes := stream_describes hs hwb hb hin'.1 hin'.2
  generalize stream (w.consts m) w.heap (w.consts m).numVars (w.heap.get a).high = p at *
  obtain ⟨h, w', x', hrun', hback, -⟩ := deserialize_returns (x := p)
    (sliceRead_delivers ()) hs.now hl hleg hdes t (n := p.length + 1) (Nat.lt_succ_self _)
  refine ⟨_, p, _, _, w', h, x', hrun, List.prefix_append _ _, fun he => ?_, hrun', hback.stands⟩
  have := congrArg List.length he
  rw [List.length_append, Record.bytes_length] at this
  omega

/-! ### The conjunction of two variables -/

/-- The node that `make_node` answers with, and the state it leaves. -/
def nodeMade (w : World) (level : UInt64) (low high : Bdd) : Bdd × World :=
  match exec 0 0 (.makeNode level low high) w with
  | .ok x => x
  | .error _ => (0, w)

theorem nodeMade_reach (level : UInt64) {w : World} {low high : Bdd} {f f' : BoolFn}
    (h : Reach 0 w) (hw : w.Whole) (hm : w.made 0 = true) (hlow : w.Stands 0 low f)
    (hhigh : w.Stands 0 high f') (hf : From (level.toNat + 1) f) (hf' : From (level.toNat + 1) f')
    (hlv : level.toNat < (w.consts 0).numVars) :
    Reach 0 (nodeMade w level low high).2 ∧ (nodeMade w level low high).2.Whole ∧
      (nodeMade w level low high).2.made 0 = true ∧
      (nodeMade w level low high).2.consts 0 = w.consts 0 ∧
      (nodeMade w level low high).2.Stands 0 (nodeMade w level low high).1
        (choose level.toNat f f') ∧
      ∀ a f, w.Stands 0 a f → (nodeMade w level low high).2.Stands 0 a f := by
  have hi := h.resting hw
  have hn := hi.now hm
  obtain ⟨r, w', he, hworks, hst⟩ := exec_makeNode (t := 0) hn hlow hhigh hf hf' hlv
  have heq : nodeMade w level low high = (r, w') := by
    unfold nodeMade
    rw [he]
  rw [heq]
  obtain ⟨w₀, hfresh, hrun⟩ := h
  refine ⟨⟨w₀, hfresh, .step hrun hw (.makeNode 0 level low high r hm hlow.1 hhigh.1 hlv
    ⟨hn.below hlow hf, hn.below hhigh hf'⟩ (run_step_ok he))⟩, (resting_works hi hm hworks).1.whole,
    ?_, hworks.reads.consts, hst, fun a f ha => hn.stands hworks.reads ha⟩
  rw [hworks.reads.made]
  exact hm

/-- The conjunction of the two variables of a new manager. -/
def bothVars : Bdd × World :=
  nodeMade (single 8 8 2) 0 ((single 8 8 2).consts 0).falseId
    (((single 8 8 2).consts 0).vars.getD 1 0)

/-- Its children are the constant 0 and the other variable. -/
theorem bothVars_children : bothVars.2.heap.brk ≤ 2 ^ 64 ∧
    (bothVars.2.heap.get bothVars.1).low = ((single 8 8 2).consts 0).falseId ∧
    (bothVars.2.heap.get bothVars.1).high = ((single 8 8 2).consts 0).vars.getD 1 0 := by decide +kernel

theorem conj_choose : (choose (0 : UInt64).toNat (fun _ => false) fun x => x 1) =
    fun x => x 0 && x 1 := by
  funext x
  show (if x 0 = true then x 1 else false) = (x 0 && x 1)
  cases x 0 <;> rfl

theorem bothVars_reach : Reach 0 bothVars.2 ∧ bothVars.2.Whole ∧ bothVars.2.made 0 = true ∧
    bothVars.2.consts 0 = (single 8 8 2).consts 0 ∧
    bothVars.2.Stands 0 bothVars.1 (fun x => x 0 && x 1) ∧
    bothVars.2.Stands 0 (bothVars.2.heap.get bothVars.1).high fun x => x 1 := by
  obtain ⟨hr, hw, hm, -⟩ := single_source
  obtain ⟨hf, -⟩ := single_founded 8 8 2 (by decide) (by decide)
  obtain ⟨v, hv, hvs⟩ := hf.var 1 (by decide)
  have hget : ((single 8 8 2).consts 0).vars.getD 1 0 = v := by
    rw [List.getD_eq_getElem?_getD, hv]
    rfl
  have hv1 : From 1 fun x => x 1 := fun s s' h => h 1 (Nat.le_refl 1)
  rw [bothVars_children.2.2, ← conj_choose, hget]
  unfold bothVars
  rw [hget]
  have hlv : (0 : UInt64).toNat < ((single 8 8 2).consts 0).numVars := by
    rw [single_numVars]
    decide
  obtain ⟨hr', hw', hm', hcon, hst, hkeep⟩ := nodeMade_reach 0 hr hw hm
    ((hr.resting hw).now hm).bot hvs (from_const _ false) hv1 hlv
  exact ⟨hr', hw', hm', hcon, hst, hkeep _ _ hvs⟩

/-- The first of the two records of the conjunction is the other variable. -/
theorem deserialize_cut : ∃ (a b : Bdd) (bytes p : List UInt8) (n k : Nat) (w' : World)
    (x' : List UInt8), Reach 0 bothVars.2 ∧ bothVars.2.Stands 0 a (fun x => x 0 && x 1) ∧
      run (execWrite (vecWrite Unit) 0 0) (serialize (bothVars.2.consts 0) a n) (bothVars.2, []) =
        .ok (.ok (), bothVars.2, bytes) ∧ p <+: bytes ∧ p ≠ bytes ∧
      run (execRead (sliceRead ()) 0 0) (deserialize true (bothVars.2.consts 0) k) (bothVars.2, p) =
        .ok (.ok b, w', x') ∧ w'.Stands 0 b fun x => x 1 := by
  obtain ⟨hr, hw, hm, hcon, ha, hb⟩ := bothVars_reach
  obtain ⟨hsmall, hlow, -⟩ := bothVars_children
  have hs := hr.source hw hm hsmall
  rw [← hcon] at hlow
  obtain ⟨bytes, p, n, k, w', h, x', h1, h2, h3, h4, h5⟩ :=
    deserialize_high true hs ((hr.resting hw).idle 0 hm) ha (hs.now.inner ha (fun _ => true)
      (fun _ => false) rfl rfl) hlow hb (hs.now.inner hb (fun _ => true) (fun _ => false) rfl rfl)
  exact ⟨bothVars.1, h, bytes, p, n, k, w', x', hr, ha, h1, h2, h3, h4, h5⟩

end Manager

end Tobdd
