import Tobdd.WellFormed

/-!
# Any bytes at all

What `deserialize` does with a record that is out of order: it stops at an id that is not known,
and it makes a node whose level is too high or not above a child.  That node stays, whatever
is read after it.

`Rough` is what is left of the invariant then: the table is in order, the diagram is not.

    wp_readNodes_rough: more records keep the nodes there are
    wp_readNodes_spoilt: records that cannot be read leave a node out of order
    Reach.deserialize_clean: so the answer is clean if and only if the header is cut off, or
                             there is a record and all of them can be read
-/

namespace Tobdd

open Resume Diagram

namespace World

/-- The table of manager `m` is in order, and the scratch node of thread `t` beside it. -/
structure Rough (m t : Nat) (w : World) : Prop where
  inv : (w.store m).Inv
  owed : (w.store m).set.owed = []
  scratch : (w.store m).ScratchOk t

/-- The nodes of manager `m` are still there, with their keys. -/
structure Kept (m : Nat) (w w' : World) : Prop where
  consts : w'.consts m = w.consts m
  live : ∀ a, (w.store m).Live a → (w'.store m).Live a
  key : ∀ a, (w.store m).Live a → (w'.heap.get a).key = (w.heap.get a).key

/-- Some node of manager `m` is out of order: its level is none of the manager's, or not less
than the level of a child. -/
def Spoilt (m : Nat) (w : World) : Prop :=
  ∃ a, (w.store m).Live a ∧ a ≠ (w.consts m).trueId ∧ a ≠ (w.consts m).falseId ∧
    ((w.consts m).numVars ≤ (w.heap.get a).level.toNat ∨
     ∃ c, (c = (w.heap.get a).low ∨ c = (w.heap.get a).high) ∧ (w.store m).Live c ∧
      c ≠ (w.consts m).trueId ∧ c ≠ (w.consts m).falseId ∧
      ¬ (w.heap.get a).level < (w.heap.get c).level)

/-- Every node of manager `m` that is not a constant has a level of the manager, less than the
levels of its children. -/
def Levelled (m : Nat) (w : World) : Prop :=
  ∀ a, (w.store m).Live a → a ≠ (w.consts m).trueId → a ≠ (w.consts m).falseId →
    (w.heap.get a).level.toNat < (w.consts m).numVars ∧
    ∀ c, c = (w.heap.get a).low ∨ c = (w.heap.get a).high → c ≠ (w.consts m).trueId →
      c ≠ (w.consts m).falseId → (w.heap.get a).level < (w.heap.get c).level

section
variable {m t : Nat} {w w' w₁ w₂ w₃ : World} {a : Bdd}

theorem Kept.refl (m : Nat) (w : World) : Kept m w w := ⟨rfl, fun _ h => h, fun _ _ => rfl⟩

theorem Kept.trans (h1 : Kept m w₁ w₂) (h2 : Kept m w₂ w₃) : Kept m w₁ w₃ :=
  ⟨h2.consts.trans h1.consts, fun a ha => h2.live a (h1.live a ha),
    fun a ha => (h2.key a (h1.live a ha)).trans (h1.key a ha)⟩

/-- A node that is out of order stays so. -/
theorem Spoilt.kept (h : Spoilt m w) (hk : Kept m w w') : Spoilt m w' := by
  obtain ⟨a, ha, hT, hF, hbad⟩ := h
  obtain ⟨hlevel, hlow, hhigh⟩ := Node.key_eq_iff.mp (hk.key a ha)
  refine ⟨a, hk.live a ha, ?_, ?_, ?_⟩
  · rw [hk.consts]
    exact hT
  · rw [hk.consts]
    exact hF
  · rw [hk.consts, hlevel, hlow, hhigh]
    refine hbad.imp_right ?_
    rintro ⟨c, hc, hl, hcT, hcF, hlt⟩
    refine ⟨c, hc, hk.live c hl, hcT, hcF, ?_⟩
    rw [(Node.key_eq_iff.mp (hk.key c hl)).1]
    exact hlt

theorem Spoilt.not_levelled (h : Spoilt m w) : ¬ Levelled m w := by
  rintro hall
  obtain ⟨a, ha, hT, hF, hbad⟩ := h
  obtain ⟨hlt, hch⟩ := hall a ha hT hF
  rcases hbad with hle | ⟨c, hc, -, hcT, hcF, hno⟩
  · omega
  · exact hno (hch c hc hcT hcF)

theorem Sound.levelled (h : w.Sound m) : Levelled m w := fun a ha hT hF =>
  ⟨h.canonical.level a ha hT hF, fun c hc hcT hcF => (h.canonical.children a ha hT hF c hc).2 hcT hcF⟩

/-- The count of references of a node is nothing to it. -/
theorem Rough.recount (h : Rough m t w) (ha : (w.store m).Live a) (f : UInt64 → UInt64) :
    Rough m t (w.recount a f) ∧ Kept m w (w.recount a f) := by
  obtain ⟨hinv, hch⟩ := h.inv.congr (u := (w.recount a f).store m) rfl rfl rfl rfl fun b hb =>
    ⟨(recount_has w a f b).mpr (h.inv.table.has hb), recount_node w a f b⟩
  have hlive := Store.live_congr (s := w.store m) (u := (w.recount a f).store m) rfl hch
  refine ⟨⟨hinv, h.owed, fun h0 => ?_⟩, rfl, fun b hb => (hlive b).mpr hb, fun b _ => ?_⟩
  · obtain ⟨h1, h2, h3⟩ := h.scratch h0
    have hne : w.freeId t ≠ a := fun he => h3 (by
      show (w.store m).Live (w.freeId t)
      rw [he]
      exact ha)
    refine ⟨(recount_has w a f _).mpr h1, ?_, fun hl => h3 ((hlive _).mp hl)⟩
    rw [← h2]
    exact recount_refs_of_ne w a f hne
  · have := recount_node w a f b
    exact Node.key_eq_iff.mpr ⟨this.level, this.low, this.high⟩

theorem Rough.withLock (h : Rough m t w) (l : RwLock) : Rough m t (w.withLock m l) ∧
    Kept m w (w.withLock m l) := by
  refine ⟨⟨?_, ?_, ?_⟩, withLock_consts .., fun a ha => ?_, fun _ _ => rfl⟩
  · rw [withLock_store]
    exact h.inv
  · rw [withLock_store]
    exact h.owed
  · rw [withLock_store]
    exact h.scratch
  · rw [withLock_store]
    exact ha

end

end World

namespace Manager

open World

section
variable {σ ε α : Type} {debug : Bool} {g : Consts} {m t : Nat} {w w' : World}
  {a b low high r : Bdd} {level : UInt64} {R : IoRead σ ε} {content : σ → List UInt8} {map : IdMap}

theorem Now.rough {g : Consts} (hn : Now g m w) (t : Nat) : Rough m t w :=
  ⟨hn.table.inv, hn.table.owed, fun h0 => by
    obtain ⟨h1, h2, h3⟩ := hn.inv.scratch t h0
    exact ⟨h1, h2, h3 m hn.made⟩⟩

/-- **`make_node`** of any level and any two nodes. -/
theorem rough_makeNode (h : Rough m t w) (he : exec m t (.makeNode level low high) w = .ok (r, w'))
    (hlow : (w.store m).Live low) : Rough m t w' ∧ Kept m w w' ∧ (w'.store m).Live r ∧
      (low ≠ high → (w'.heap.get r).level = level ∧ (w'.heap.get r).low = low ∧
        (w'.heap.get r).high = high) := by
  by_cases hne : low = high
  · subst hne
    rw [exec_makeNode_same] at he
    obtain ⟨rfl, rfl⟩ := Prod.mk.inj (Except.ok.inj he)
    exact ⟨h, .refl m w, hlow, fun h => absurd rfl h⟩
  · rcases Store.run_makeNode level h.inv h.owed h.scratch hne
        (n := w.heap.brk + 2) (Nat.lt_succ_self _) with ⟨r', s, hrun, hmade⟩ | ⟨hrun, -⟩
    · simp only [exec, hrun] at he
      obtain ⟨rfl, rfl⟩ := Prod.mk.inj (Except.ok.inj he)
      have hst := put_store w m s
      refine ⟨⟨?_, ?_, ?_⟩, ⟨put_consts w m s m, fun a ha => ?_, fun a ha => ?_⟩, ?_, fun _ =>
        Node.key_eq_iff.mp hmade.key⟩
      · rw [hst]
        exact hmade.inv
      · rw [hst]
        exact hmade.owed
      · rw [hst]
        exact hmade.scratch
      · rw [hst]
        exact hmade.grows.live ha
      · exact hmade.grows.key ha
      · rw [hst]
        exact hmade.result
    · simp only [exec, hrun] at he
      cases he

/-! ## Steps of which nothing is said but what they do when they answer -/

theorem wp_tryOp {o : ReadOp} {k : (readOps ε).Res o → Prog (readOps ε) α}
    {Q : α → World × σ → Prop} {y : World × σ}
    (h : ∀ r y', execRead R m t o y = .ok (r, y') → wp (trying R m t) (k r) Q y') :
    wp (trying R m t) (.step o k) Q y := by
  rintro _ rfl
  cases he : execRead R m t o y with
  | ok v => exact Logic.Does.of_ok trivial he fun _ => ⟨trivial, h v.1 v.2 he⟩
  | error e => exact Logic.Does.of_error trivial he trivial

theorem wp_tryMgr {o : Op} {k : ops.Res o → Prog (readOps ε) α} {Q : α → World × σ → Prop} {x : σ}
    (h : ∀ r w', exec m t o w = .ok (r, w') → wp (trying R m t) (k r) Q (w', x)) :
    wp (trying R m t) ((step o).lift (besideReader ε) >>= k) Q (w, x) := by
  refine wp_tryOp (o := .mgr o) fun r y' he => ?_
  simp only [execRead] at he
  split at he
  · next r' w' he' =>
    obtain ⟨rfl, rfl⟩ := Prod.mk.inj (Except.ok.inj he)
    exact h r' w' he'
  · cases he

theorem wp_tryGet {id : UInt64} {k : Bdd → Prog (readOps ε) α} {Q : α → World × σ → Prop}
    {y : World × σ} (h : ∀ b, map.lookup id = some b → wp (trying R m t) (k b) Q y) :
    wp (trying R m t) (getUnwrap map id >>= k) Q y := by
  unfold getUnwrap
  cases hb : map.lookup id with
  | some b => exact h b hb
  | none => exact wp_tryOp (o := .panic) fun r => r.elim

theorem wp_tryAssert {c : Prop} [Decidable c] {k : Unit → Prog (readOps ε) α}
    {Q : α → World × σ → Prop} {y : World × σ}
    (h : (debug = true → c) → wp (trying R m t) (k ()) Q y) :
    wp (trying R m t) (debugAssert debug c >>= k) Q y := by
  unfold debugAssert
  by_cases hd : debug = true ∧ ¬ c
  · rw [if_pos hd]
    exact wp_tryOp (o := .panic) fun r => r.elim
  · rw [if_neg hd]
    exact h fun h1 => by_contra fun h2 => hd ⟨h1, h2⟩

theorem wp_tryRef {k : Unit → Prog (readOps ε) α} {Q : α → World × σ → Prop} {x : σ}
    (hr : Rough m t w) (ha : (w.store m).Live a)
    (h : ∀ w', Rough m t w' → Kept m w w' → wp (trying R m t) (k ()) Q (w', x)) :
    wp (trying R m t) ((refBdd a).lift (besideReader ε) >>= k) Q (w, x) := by
  refine wp_tryMgr (o := .acc (.fetchAdd a)) fun _ w' he => ?_
  rw [exec_fetchAdd (hr.inv.table.has ha)] at he
  obtain ⟨-, rfl⟩ := Prod.mk.inj (Except.ok.inj he)
  obtain ⟨h1, h2⟩ := hr.recount ha (· + 1)
  exact h _ h1 h2

/-! ## The loop over the records -/

/-- The state after some records: the table is in order, and the nodes in `map` are there. -/
structure Rest (m t : Nat) (w : World) (map : IdMap) (w' : World) : Prop where
  rough : Rough m t w'
  kept : Kept m w w'
  map : ∀ id b, map.lookup id = some b → (w'.store m).Live b

theorem lookup_insert {id i : UInt64} {c : Bdd} (h : (map.insert id b).lookup i = some c) :
    c = b ∨ map.lookup i = some c := by
  by_cases hi : i = id
  · subst hi
    rw [AList.lookup_insert] at h
    exact Or.inl (Option.some.inj h).symm
  · rw [AList.lookup_insert_ne hi] at h
    exact Or.inr h

/-- One record, for two nodes that are there. -/
theorem wp_tryRecord {id : UInt64} {n : Nat} {x : σ} {Q : IdMap × Bdd → World × σ → Prop}
    (hr : Rough m t w) (hmap : ∀ id b, map.lookup id = some b → (w.store m).Live b)
    (hlow : (w.store m).Live low)
    (hk : ∀ r w', Rest m t w (map.insert id r) w' → (w'.store m).Live r →
      (low ≠ high → (w'.heap.get r).level = level ∧ (w'.heap.get r).low = low ∧
        (w'.heap.get r).high = high) →
      wp (trying R m t) (readNodes debug g n (map.insert id r) r) Q (w', x)) :
    wp (trying R m t) (do
      let ret : Bdd ← (step (.makeNode level low high)).lift (besideReader ε)
      (refBdd ret).lift (besideReader ε)
      readNodes debug g n (map.insert id ret) ret) Q (w, x) := by
  refine wp_tryMgr fun r w₂ he => ?_
  obtain ⟨hr₂, hk₂, hl₂, hkey⟩ := rough_makeNode hr he hlow
  refine wp_tryRef hr₂ hl₂ fun w₃ hr₃ hk₃ => ?_
  refine hk r w₃ ⟨hr₃, hk₂.trans hk₃, fun i b hb => ?_⟩ (hk₃.live r hl₂) fun hne => ?_
  · rcases lookup_insert hb with rfl | hb
    · exact hk₃.live _ hl₂
    · exact hk₃.live b (hk₂.live b (hmap i b hb))
  · obtain ⟨h1, h2, h3⟩ := Node.key_eq_iff.mp (hk₃.key r hl₂)
    rw [h1, h2, h3]
    exact hkey hne

/-- **More records** keep the nodes there are. -/
theorem wp_readNodes_rough : ∀ n w (map : IdMap) ret x, Rough m t w →
    (∀ id b, map.lookup id = some b → (w.store m).Live b) → (w.store m).Live ret →
    wp (trying R m t) (readNodes debug g n map ret)
      (fun r y => Rest m t w r.1 y.1 ∧ (y.1.store m).Live r.2) (w, x) := by
  intro n
  induction n with
  | zero =>
    intro w map ret x _ _ _
    exact wp_tryOp (o := .mgr .spinLoop) fun r => r.elim
  | succ n ih =>
    intro w map ret x hr hmap hret
    unfold readNodes
    refine wp_tryOp (o := .readExact 32) fun res y' he => ?_
    obtain ⟨rfl, rfl⟩ := Prod.mk.inj (Except.ok.inj he)
    cases (R.readExact 32 x).1 with
    | error e => exact ⟨⟨hr, .refl m w, hmap⟩, hret⟩
    | ok window =>
      refine wp_tryAssert fun _ => wp_tryGet fun bl hbl => wp_tryGet fun bh _ => ?_
      refine wp_tryRecord hr hmap (hmap _ _ hbl) fun r w₂ h₂ hl₂ _ => ?_
      refine wp_mono ?_ (ih w₂ _ r _ h₂.rough h₂.map hl₂)
      rintro ⟨map', ret'⟩ y ⟨h₃, hl₃⟩
      exact ⟨⟨h₃.rough, h₂.kept.trans h₃.kept, h₃.map⟩, hl₃⟩

/-- A node for different children, of a level that is none of the manager's or not above both. -/
theorem spoilt_of_unsound {F : Meaning} {rec : Record} {f f' : BoolFn} {w₂ : World}
    (hn : Now g m w) (hf : F rec.low = some f) (hf' : F rec.high = some f')
    (hbl : w.Stands m low f) (hbh : w.Stands m high f') (hno : ¬ rec.Sound debug g.numVars F)
    (hassert : debug = true → rec.level.toNat ≤ g.numVars)
    (hk : Kept m w w₂) (hr : (w₂.store m).Live r)
    (hkey : low ≠ high → (w₂.heap.get r).level = rec.level ∧ (w₂.heap.get r).low = low ∧
      (w₂.heap.get r).high = high) : Spoilt m w₂ := by
  have hff : f ≠ f' := fun h => hno ⟨hassert, f, f', hf, hf', Or.inl h⟩
  have hne : low ≠ high := by
    rintro rfl
    exact hff (hn.table.nodes.functional (hn.stands_iff.mp hbl).2 (hn.stands_iff.mp hbh).2)
  obtain ⟨hlevel, hlow, hhigh⟩ := hkey hne
  have hcon : w₂.consts m = g := hk.consts.trans hn.consts
  -- the constants have no children
  have hconst : ∀ c, c = g.trueId ∨ c = g.falseId → (w.store m).Live c → r ≠ c := by
    rintro c hc hlc rfl
    have h0 : (w.heap.get r).low = 0 := (hn.table.nodes.terminal hc).1
    rw [← (Node.key_eq_iff.mp (hk.key r hlc)).2.1] at h0
    exact (hn.table.nodes.has low hbl.1).ne_zero (hlow.symm.trans h0)
  refine ⟨r, hr, ?_, ?_, ?_⟩
  · rw [hcon]
    exact hconst _ (Or.inl rfl) hn.top.1
  · rw [hcon]
    exact hconst _ (Or.inr rfl) hn.bot.1
  · rw [hcon, hlevel, hlow, hhigh]
    by_contra hall
    obtain ⟨hlt, hch⟩ := not_or.mp hall
    -- otherwise the record were in order
    have hfrom : ∀ c f, w.Stands m c f → (c = low ∨ c = high) → From (rec.level.toNat + 1) f := by
      intro c f hc hcc
      refine hn.table.nodes.ordered.from (hn.stands_iff.mp hc).1 (fun hnode => ?_)
        (hn.stands_iff.mp hc).2
      by_contra hle
      refine hch ⟨c, hcc, hk.live c hc.1, hnode.2.1, hnode.2.2, fun hl => hle ?_⟩
      rw [(Node.key_eq_iff.mp (hk.key c hc.1)).1] at hl
      have hlv : (w.heap.get c).lvl = (w.heap.get c).level.toNat := hn.table.nodes.lvl_eq hc.1
      show rec.level.toNat + 1 ≤ (w.heap.get c).lvl
      rw [hlv]
      exact hl
    exact hno ⟨hassert, f, f', hf, hf', Or.inr ⟨Nat.lt_of_not_le hlt, hfrom low f hbl (Or.inl rfl),
      hfrom high f' hbh (Or.inr rfl)⟩⟩

/-- **Records that cannot be read** leave a node out of order, if anything. -/
theorem wp_readNodes_spoilt (hR : Delivers R content) : ∀ n F w (map : IdMap) ret x,
    Now g m w → Means F m w map → ¬ Readable debug g.numVars F (body (content x)) →
    wp (trying R m t) (readNodes debug g n map ret)
      (fun r y => Rest m t w r.1 y.1 ∧ (y.1.store m).Live r.2 ∧ Spoilt m y.1) (w, x) := by
  intro n
  induction n with
  | zero =>
    intro F w map ret x _ _ _
    exact wp_tryOp (o := .mgr .spinLoop) fun r => r.elim
  | succ n ih =>
    intro F w map ret x hn hm hno
    have hlen : 32 ≤ (content x).length := by
      by_contra hlt
      rw [body_short (Nat.lt_of_not_le hlt)] at hno
      exact hno trivial
    rw [body_cons hlen] at hno
    unfold readNodes
    obtain ⟨x', hrd, hx'⟩ := hR.read 32 x hlen
    refine wp_tryOp (o := .readExact 32) fun res y' he => ?_
    simp only [execRead, hrd] at he
    obtain ⟨rfl, rfl⟩ := Prod.mk.inj (Except.ok.inj he)
    rw [← hx'] at hno
    by_cases hs : (recordOf ((content x).take 32)).Sound debug g.numVars F
    · obtain ⟨bl, bh, b, f, w₂, w₃, hbl, hbh, he, he', hx₃, -, hst, hm₃, -⟩ :=
        exec_record (t := t) hn hm hs
      refine wp_tryAssert fun _ => wp_tryGet fun bl' hbl' => wp_tryGet fun bh' hbh' => ?_
      obtain rfl := Option.some.inj (hbl.symm.trans hbl')
      obtain rfl := Option.some.inj (hbh.symm.trans hbh')
      refine wp_tryMgr fun b' w₂' he₂ => ?_
      obtain ⟨rfl, rfl⟩ := Prod.mk.inj (Except.ok.inj (he.symm.trans he₂))
      refine wp_tryMgr (o := .acc (.fetchAdd b)) fun _ w₃' he₃ => ?_
      obtain ⟨-, rfl⟩ := Prod.mk.inj (Except.ok.inj (he'.symm.trans he₃))
      have hn₃ := hx₃.now hn
      refine wp_mono ?_ (ih _ w₃ _ b x' hn₃ hm₃ fun h => hno ⟨hs, h⟩)
      rintro ⟨map', ret'⟩ y ⟨h₄, hl₄, hsp⟩
      have hk₃ : Kept m w w₃ := ⟨hx₃.reads.consts, hx₃.reads.live, fun a ha =>
        (hx₃.reads.node a ha).key⟩
      exact ⟨⟨h₄.rough, hk₃.trans h₄.kept, h₄.map⟩, hl₄, hsp⟩
    · refine wp_tryAssert fun hassert => wp_tryGet fun bl hbl => wp_tryGet fun bh hbh => ?_
      obtain ⟨f, hf, hsl⟩ := hm.of_lookup hbl
      obtain ⟨f', hf', hsh⟩ := hm.of_lookup hbh
      refine wp_tryRecord (hn.rough t) (fun id b hb => (hm.of_lookup hb).choose_spec.2.1) hsl.1
        fun r w₂ h₂ hl₂ hkey => ?_
      have hsp := spoilt_of_unsound hn hf hf' hsl hsh hs hassert h₂.kept hl₂ hkey
      refine wp_mono ?_ (wp_readNodes_rough n w₂ _ r x' h₂.rough h₂.map hl₂)
      rintro ⟨map', ret'⟩ y ⟨h₃, hl₃⟩
      exact ⟨⟨h₃.rough, h₂.kept.trans h₃.kept, h₃.map⟩, hl₃, hsp.kept h₃.kept⟩

/-- `deref_bdd` of nodes of the table. -/
theorem wp_derefAll_rough {x : σ} : ∀ (l : List Bdd) w, Rough m t w →
    (∀ b ∈ l, (w.store m).Live b) → wp (trying R m t) ((derefAll l).lift (besideReader ε))
      (fun _ y => Rough m t y.1 ∧ Kept m w y.1) (w, x) := by
  intro l
  induction l with
  | nil => exact fun w hr _ => ⟨hr, .refl m w⟩
  | cons b l ih =>
    intro w hr hl
    have hb := hl b List.mem_cons_self
    unfold derefAll
    rw [lift_bind]
    refine wp_tryMgr (o := .acc (.fetchSub b)) fun _ w₂ he => ?_
    rw [exec_fetchSub (hr.inv.table.has hb)] at he
    obtain ⟨-, rfl⟩ := Prod.mk.inj (Except.ok.inj he)
    obtain ⟨hr₂, hk₂⟩ := hr.recount hb (· - 1)
    refine wp_mono ?_ (ih _ hr₂ fun c hc => hk₂.live c (hl c (List.mem_cons_of_mem _ hc)))
    rintro _ y ⟨hr₃, hk₃⟩
    exact ⟨hr₃, hk₂.trans hk₃⟩

/-- **A stream with a header, of which not all records can be read**, leaves a node out of
order, if it is answered at all. -/
theorem run_deserialize_spoilt (hR : Delivers R content) (hn : Now g m w)
    (hl : w.Idle m) {x : σ} (hlen : 16 ≤ (content x).length)
    (hno : ¬ Readable debug g.numVars (.start (word (content x) 0) (word (content x) 1))
      (body ((content x).drop 16))) (n : Nat) {h : Except ε Bdd} {w' : World} {x' : σ}
    (hrun : run (execRead R m t) (deserialize debug g n) (w, x) = .ok (h, w', x')) : Spoilt m w' := by
  have hn₁ : Now g m (w.withLock m ⟨[t], none⟩) :=
    ⟨hn.inv.withLock m _, hn.made, by rw [withLock_consts, hn.consts]⟩
  have hbad : wp (trying R m t) (deserialize debug g n) (fun _ y => Spoilt m y.1) (w, x) := by
    unfold deserialize
    refine wp_header hR hl hlen fun x₁ hx₁ => ?_
    rw [← hx₁] at hno
    show wp (trying R m t) (readNodes debug g n _ 0 >>= fun _ => _) _ (_, _)
    rw [word_take (by decide), word_take (by decide)]
    refine wp_seq (wp_readNodes_spoilt hR n _ _ _ 0 x₁ hn₁ (means_start hn₁ _ _) hno) ?_
    rintro ⟨map, ret⟩ ⟨w₂, x₂⟩ ⟨h₂, hl₂, hsp⟩
    -- the references are dropped, the guard too
    refine wp_seq (wp_derefAll_rough _ w₂ h₂.rough fun b hb => ?_) ?_
    · obtain ⟨⟨id, b⟩, hmem, rfl⟩ := List.mem_map.mp hb
      exact h₂.map id b (AList.mem_lookup_iff.mpr hmem)
    rintro _ ⟨w₃, x₃⟩ ⟨hr₃, hk₃⟩
    refine wp_tryRef hr₃ (hk₃.live ret hl₂) fun w₄ hr₄ hk₄ => ?_
    refine wp_tryMgr (o := .dropRead) fun _ w₅ he => ?_
    simp only [exec, change] at he
    obtain ⟨-, rfl⟩ := Prod.mk.inj (Except.ok.inj he)
    exact hsp.kept ((hk₃.trans hk₄).trans (hr₄.withLock _).2)
  rcases wp_run (fun _ => trivial) (fun _ _ _ _ _ => trivial) hbad with
    ⟨_, _, h', hsp, -⟩ | ⟨_, _, h', -, -⟩
  · obtain ⟨-, h2⟩ := Prod.mk.inj (Except.ok.inj (h'.symm.trans hrun))
    rw [h2] at hsp
    exact hsp
  · cases h'.symm.trans hrun

/-! ## Clean answers -/

/-- The nodes of every manager are as they were, and those that are new are not referenced. -/
structure Untouched (w w' : World) : Prop where
  old : ∀ k a, (w.store k).Live a → (w'.store k).Live a ∧ w'.heap.get a = w.heap.get a
  new : ∀ k a, (w'.store k).Live a → ¬ (w.store k).Live a → (w'.heap.get a).refCnt = 0

/-- With enough rounds `deserialize` refuses and changes nothing, or it answers with a node of
the table, whose levels are in order. -/
def Clean (debug : Bool) (R : IoRead σ ε) (t m : Nat) (w : World) (x : σ) : Prop :=
  ∃ N, ∀ n, N ≤ n →
    (∃ e w' x', run (execRead R m t) (deserialize debug (w.consts m) n) (w, x) = .ok (.error e, w', x') ∧
      Untouched w w') ∨
    ∃ h w' x', run (execRead R m t) (deserialize debug (w.consts m) n) (w, x) = .ok (.ok h, w', x') ∧
      h ≠ 0 ∧ (w'.store m).Live h ∧ Levelled m w'

/-- **The answer is clean** if and only if the header is cut off, or there is a record and all of
them can be read. -/
theorem Reach.deserialize_clean (h : Reach t w) (hw : w.Whole) (hm : w.made m = true)
    (debug : Bool) (hR : Delivers R content) (x : σ) :
    Clean debug R t m w x ↔ (content x).length < 16 ∨ 48 ≤ (content x).length ∧
      Readable debug (w.consts m).numVars (.start (word (content x) 0) (word (content x) 1))
        (body ((content x).drop 16)) := by
  have hi := h.resting hw
  have hn := hi.now hm
  have hl := hi.idle m hm
  constructor
  · rintro ⟨N, hN⟩
    by_contra hno
    obtain ⟨hlen, hbad⟩ := not_or.mp hno
    have hlen := Nat.le_of_not_lt hlen
    rcases hN N (Nat.le_refl N) with ⟨e, w', x', hrun, -⟩ | ⟨b, w', x', hrun, -, -, hlev⟩
    · exact run_deserialize_accepts hR hl hlen _ _ t N hrun
    · rcases Nat.lt_or_ge (content x).length 48 with hshort | hlong
      · obtain ⟨e, he⟩ := run_deserialize_empty hR hn hl hlen hshort debug t N
        cases he.symm.trans hrun
      · have hsp := run_deserialize_spoilt hR hn hl hlen (fun hr => hbad ⟨hlong, hr⟩) N hrun
        exact hsp.not_levelled hlev
  · rintro (hlen | ⟨hlen, hread⟩)
    · refine ⟨0, fun n _ => Or.inl ?_⟩
      obtain ⟨e, x', hrun⟩ := run_deserialize_short hR hl hlen debug (w.consts m) t n
      exact ⟨e, w, x', hrun, fun k a ha => ⟨ha, rfl⟩, fun k a ha hna => absurd ha hna⟩
    · refine ⟨(content x).length + 1, fun n hlt => Or.inr ?_⟩
      have hleg : Legible debug (w.consts m).numVars (content x) := ⟨by omega, hread⟩
      obtain ⟨f, hf⟩ := hleg.describes fun h0 => by
        have := congrArg List.length h0
        rw [body_length, List.length_drop] at this
        have h0 : ([] : List Record).length = 0 := rfl
        omega
      obtain ⟨b, w', x', hrun, hb, -⟩ := deserialize_returns hR hn hl hleg hf t hlt
      have hm' : w'.made m = true := by
        rw [hb.made]
        exact hm
      have hb1 := hb.stands.1
      exact ⟨b, w', x', hrun, ((hb.inv.table m hm').nodes.has b hb1).ne_zero, hb1,
        (hb.inv.sound hm').levelled⟩

end

/-- The constant 0 once more, of a level just too large for a node, and the variable `1` above it. -/
theorem readable_equal : Readable true 2 (.start 1 2) [⟨3, 2, 1, 1⟩, ⟨4, 1, 3, 2⟩] := by
  have hbot : Meaning.start 1 2 1 = some fun _ => false := rfl
  have hval : Record.value (.start 1 2) ⟨3, 2, 1, 1⟩ = some fun _ => false := by
    rw [Record.value_eq hbot hbot, choose_self]
  refine ⟨⟨fun _ => by decide, _, _, hbot, hbot, Or.inl rfl⟩, ⟨fun _ => by decide, fun _ => false,
    fun _ => true, hval, rfl, Or.inr ⟨by decide, ?_, ?_⟩⟩, trivial⟩
  · exact from_const _ false
  · exact from_const _ true

theorem Reach.deserialize_clean_single : Clean true (sliceRead ()) 0 0 (single 8 8 2)
    (framed 1 2 [⟨3, 2, 1, 1⟩, ⟨4, 1, 3, 2⟩]) := by
  obtain ⟨hr, hw, hm, -⟩ := single_source
  refine (Reach.deserialize_clean hr hw hm true (sliceRead_delivers ()) _).mpr (Or.inr ⟨?_, ?_⟩)
  · rw [id, framed_length]
    decide
  · obtain ⟨h0, h1⟩ := framed_word 1 2 [⟨3, 2, 1, 1⟩, ⟨4, 1, 3, 2⟩]
    rw [id, framed_body, h0, h1, single_numVars]
    exact readable_equal

/-- A header alone is not answered, in any profile. -/
theorem header_not_clean : ¬ Clean false (sliceRead ()) 0 0 (single 8 8 2) (List.replicate 16 0) ∧
    ¬ Clean true (sliceRead ()) 0 0 (single 8 8 2) (List.replicate 16 0) := by
  obtain ⟨hr, hw, hm, -⟩ := single_source
  have hi := hr.resting hw
  have key : ∀ debug, ¬ Clean debug (sliceRead ()) 0 0 (single 8 8 2) (List.replicate 16 0) := by
    rintro debug ⟨N, hN⟩
    obtain ⟨e, he⟩ := run_deserialize_empty (sliceRead_delivers ()) (hi.now hm)
      (hi.idle 0 hm) (x := List.replicate 16 0) (by decide) (by decide) debug 0 N
    rcases hN N (Nat.le_refl N) with ⟨_, _, _, hrun, -⟩ | ⟨_, _, _, hrun, -⟩
    · cases he.symm.trans hrun
    · cases he.symm.trans hrun
  exact ⟨key false, key true⟩

end Manager

end Tobdd
