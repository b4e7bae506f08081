import Tobdd.Lib.Diagram
import Tobdd.Manager
import Tobdd.Mark

/-!
# What holds between operations

`Denotes g h a f`: the handle `a` stands for the Boolean function `f`; the level is read
without its mark, so that a collection under way does not matter.

`TableOk`: the table of a manager is in order, and its nodes are a reduced ordered diagram.
`CachesOk`: what the memo tables hold is true.  `World.Inv` is both for every manager, and
that no two managers, and no scratch node, share a node.

    TableOk.canonical: two nodes of a table that stand for one function are one
-/

namespace Tobdd

open Resume Diagram

namespace Consts

/-- The diagram that the nodes of a heap form, with the constants of `g`. -/
def graph (g : Consts) (h : Heap) : Graph Bdd where
  node a := h.Has a ∧ a ≠ g.trueId ∧ a ≠ g.falseId
  level a := (h.get a).lvl
  low a := (h.get a).low
  high a := (h.get a).high
  top := g.trueId
  bot := g.falseId

def Denotes (g : Consts) (h : Heap) (a : Bdd) (f : BoolFn) : Prop := Diagram.Denotes (g.graph h) a f

/-- How far a node is from the constants. -/
def rank (g : Consts) (h : Heap) (a : Bdd) : Nat :=
  if a = g.trueId ∨ a = g.falseId then 0 else g.numVars - (h.get a).lvl

end Consts

/-- The nodes `L` are a diagram over the constants of `g`: closed under children, the levels
below `num_vars` and going up, and no node with equal children. -/
structure NodesOk (g : Consts) (h : Heap) (L : Bdd → Prop) : Prop where
  numVars : g.numVars < 2 ^ 60
  has : ∀ a, L a → h.Has a
  top : L g.trueId
  bot : L g.falseId
  topKey : (h.get g.trueId).key = (Node.new 1).key
  botKey : (h.get g.falseId).key = (Node.new 0).key
  unmarked : ∀ a, L a → ¬ (h.get a).Marked
  closed : ∀ a, L a → (g.graph h).node a → L (h.get a).low ∧ L (h.get a).high
  bound : ∀ a, L a → (g.graph h).node a → (h.get a).lvl < g.numVars
  below : ∀ a, L a → (g.graph h).node a →
    (g.graph h).Below (h.get a).lvl (h.get a).low ∧ (g.graph h).Below (h.get a).lvl (h.get a).high
  ne : ∀ a, L a → (g.graph h).node a → (h.get a).low ≠ (h.get a).high

/-- The table of a manager, in order. -/
structure TableOk (g : Consts) (s : Store) : Prop where
  inv : s.Inv
  owed : s.set.owed = []
  len : s.set.buckets.len = rangeI32 s.set.sizeExp
  nodes : NodesOk g s.heap s.Live

namespace NodesOk

variable {g : Consts} {h h' : Heap} {L L' : Bdd → Prop} {a b : Bdd} {f f' : BoolFn}

theorem top_ne_bot (hn : NodesOk g h L) : g.trueId ≠ g.falseId := by
  intro he
  have h1 := hn.topKey
  rw [he, hn.botKey] at h1
  exact absurd (Node.key_eq_iff.mp h1).1 (by decide)

theorem proper (hn : NodesOk g h L) : (g.graph h).Proper :=
  ⟨hn.top_ne_bot, fun h => h.2.1 rfl, fun h => h.2.2 rfl⟩

theorem cases (hn : NodesOk g h L) (ha : L a) :
    a = g.trueId ∨ a = g.falseId ∨ (g.graph h).node a := by
  by_cases h1 : a = g.trueId
  · exact Or.inl h1
  · by_cases h2 : a = g.falseId
    · exact Or.inr (Or.inl h2)
    · exact Or.inr (Or.inr ⟨hn.has a ha, h1, h2⟩)

theorem ordered (hn : NodesOk g h L) : Ordered (g.graph h) g.numVars L :=
  ⟨hn.proper, fun _ => hn.cases, hn.closed, hn.bound, hn.below⟩

/-- Without the mark, the level is the one in the key. -/
theorem lvl_eq (hn : NodesOk g h L) (ha : L a) : (h.get a).lvl = (h.get a).level.toNat := by
  unfold Node.lvl
  rw [unmark_of_not_marked (by simpa [Node.Marked] using hn.unmarked a ha)]

/-- Every node stands for a function, and for one only. -/
theorem denotes (hn : NodesOk g h L) (ha : L a) : ∃ f, g.Denotes h a f :=
  (hn.ordered.denotes (l := 0) ha fun _ => Nat.zero_le _).imp fun _ hf => hf.1

theorem functional (hn : NodesOk g h L) (hf : g.Denotes h a f) (hf' : g.Denotes h a f') : f = f' :=
  Diagram.Denotes.functional hn.proper hf hf'

/-- A handle goes on to stand for its function while a part of the nodes that it is in, and
that is closed under children, stays. -/
theorem keepPart (hn : NodesOk g h L) (hsub : ∀ a, L' a → L a)
    (hcl : ∀ a c, L' a → h.Child a c → L' c) (hs : ∀ a, L' a → h'.Has a ∧ (h.get a).Same (h'.get a))
    (ha : L' a) (hf : g.Denotes h a f) : g.Denotes h' a f := by
  have hclosed : ∀ a, L' a → (g.graph h).node a → L' (h.get a).low ∧ L' (h.get a).high := by
    intro a ha hn'
    obtain ⟨h1, h2⟩ := hn.closed a (hsub a ha) hn'
    exact ⟨hcl a _ ha ⟨hn'.1, hn.has _ h1, Or.inl rfl⟩, hcl a _ ha ⟨hn'.1, hn.has _ h2, Or.inr rfl⟩⟩
  exact Diagram.Denotes.congr hclosed rfl rfl (fun a ha hn => ⟨⟨(hs a ha).1, hn.2⟩,
    (hs a ha).2.lvl, (hs a ha).2.low, (hs a ha).2.high⟩) ha hf

/-- The constants have no children. -/
theorem terminal (hn : NodesOk g h L) (ha : a = g.trueId ∨ a = g.falseId) :
    (h.get a).low = 0 ∧ (h.get a).high = 0 := by
  rcases ha with rfl | rfl
  · exact (Node.key_eq_iff.mp hn.topKey).2
  · exact (Node.key_eq_iff.mp hn.botKey).2

theorem child (hn : NodesOk g h L) (ha : L a) {c : Bdd} (h0 : c ≠ 0)
    (hc : c = (h.get a).low ∨ c = (h.get a).high) : L c ∧ g.rank h c < g.rank h a := by
  rcases hn.cases ha with h1 | h1 | h1
  · obtain ⟨h2, h3⟩ := hn.terminal (Or.inl h1)
    exact absurd (hc.elim (·.trans h2) (·.trans h3)) h0
  · obtain ⟨h2, h3⟩ := hn.terminal (Or.inr h1)
    exact absurd (hc.elim (·.trans h2) (·.trans h3)) h0
  · have hb := hn.bound a ha h1
    have hra : g.rank h a = g.numVars - (h.get a).lvl :=
      if_neg fun h => h.elim h1.2.1 h1.2.2
    have key : ∀ c, L c → (g.graph h).Below (h.get a).lvl c → g.rank h c < g.rank h a := by
      intro c hc hbe
      rw [hra]
      unfold Consts.rank
      split
      · omega
      · next hcn =>
        rcases hbe with hbe | hbe | hbe
        · exact absurd (Or.inl hbe) hcn
        · exact absurd (Or.inr hbe) hcn
        · have : (h.get a).lvl < (h.get c).lvl := hbe
          omega
    obtain ⟨h2, h3⟩ := hn.closed a ha h1
    obtain ⟨h4, h5⟩ := hn.below a ha h1
    rcases hc with rfl | rfl
    · exact ⟨h2, key _ h2 h4⟩
    · exact ⟨h3, key _ h3 h5⟩

theorem child_mem (hn : NodesOk g h L) (a c : Bdd) (ha : L a) (hc : h.Child a c) : L c :=
  (hn.child ha hc.2.1.ne_zero hc.2.2).1

/-- The same where all nodes stay. -/
theorem keep (hn : NodesOk g h L) (hs : ∀ a, L a → h'.Has a ∧ (h.get a).Same (h'.get a)) (ha : L a)
    (hf : g.Denotes h a f) : g.Denotes h' a f := hn.keepPart (fun _ h => h) hn.child_mem hs ha hf

/-- A part of the nodes that is closed under children, in a heap that keeps them. -/
theorem restrict (hn : NodesOk g h L) (hsub : ∀ a, L' a → L a) (htop : L' g.trueId)
    (hbot : L' g.falseId) (hcl : ∀ a c, L' a → h.Child a c → L' c)
    (hs : ∀ a, L' a → h'.Has a ∧ (h.get a).Alike (h'.get a)) : NodesOk g h' L' := by
  have hnode : ∀ a, L' a → (g.graph h').node a → (g.graph h).node a := fun a ha hn' =>
    ⟨hn.has a (hsub a ha), hn'.2⟩
  have hclosed : ∀ a, L' a → (g.graph h').node a → L' (h.get a).low ∧ L' (h.get a).high := by
    intro a ha hn'
    have hh := hn.has a (hsub a ha)
    obtain ⟨h1, h2⟩ := hn.closed a (hsub a ha) (hnode a ha hn')
    exact ⟨hcl a _ ha ⟨hh, hn.has _ h1, Or.inl rfl⟩, hcl a _ ha ⟨hh, hn.has _ h2, Or.inr rfl⟩⟩
  have hlvl : ∀ a, L' a → (h'.get a).lvl = (h.get a).lvl := fun a ha => (hs a ha).2.same.lvl
  have hbelow : ∀ l c, L' c → (g.graph h).Below l c → (g.graph h').Below l c := by
    refine fun l c hc hb => hb.imp_right (Or.imp_right fun hlt => ?_)
    show l < (h'.get c).lvl
    rw [hlvl c hc]
    exact hlt
  refine ⟨hn.numVars, fun a ha => (hs a ha).1, htop, hbot, (hs _ htop).2.key.trans hn.topKey,
    (hs _ hbot).2.key.trans hn.botKey,
    fun a ha hm => hn.unmarked a (hsub a ha) ((hs a ha).2.marked.mp hm), fun a ha hn' => ?_,
    fun a ha hn' => ?_, fun a ha hn' => ?_, fun a ha hn' => ?_⟩
  · rw [(hs a ha).2.low, (hs a ha).2.high]
    exact hclosed a ha hn'
  · rw [hlvl a ha]
    exact hn.bound a (hsub a ha) (hnode a ha hn')
  · obtain ⟨h1, h2⟩ := hclosed a ha hn'
    obtain ⟨h3, h4⟩ := hn.below a (hsub a ha) (hnode a ha hn')
    rw [(hs a ha).2.low, (hs a ha).2.high, hlvl a ha]
    exact ⟨hbelow _ _ h1 h3, hbelow _ _ h2 h4⟩
  · rw [(hs a ha).2.low, (hs a ha).2.high]
    exact hn.ne a (hsub a ha) (hnode a ha hn')

/-- The same nodes in a heap that keeps them. -/
theorem congr (hn : NodesOk g h L) (hs : ∀ a, L a → h'.Has a ∧ (h.get a).Alike (h'.get a)) :
    NodesOk g h' L :=
  hn.restrict (fun _ ha => ha) hn.top hn.bot hn.child_mem hs

/-- One node more, on top of the others. -/
theorem add (hn : NodesOk g h L) {r : Bdd} (hr : h.Has r) (hL : ∀ a, L' a ↔ L a ∨ a = r)
    (hm : ¬ (h.get r).Marked) (hlow : L (h.get r).low) (hhigh : L (h.get r).high)
    (hne : (h.get r).low ≠ (h.get r).high) (hb : (h.get r).lvl < g.numVars)
    (hbl : (g.graph h).Below (h.get r).lvl (h.get r).low)
    (hbh : (g.graph h).Below (h.get r).lvl (h.get r).high) : NodesOk g h L' where
  numVars := hn.numVars
  has a ha := ((hL a).mp ha).elim (hn.has a) fun h => h ▸ hr
  top := (hL _).mpr (Or.inl hn.top)
  bot := (hL _).mpr (Or.inl hn.bot)
  topKey := hn.topKey
  botKey := hn.botKey
  unmarked a ha := ((hL a).mp ha).elim (hn.unmarked a) fun h => h ▸ hm
  closed a ha hn' := by
    rcases (hL a).mp ha with h1 | rfl
    · exact (hn.closed a h1 hn').imp (fun h => (hL _).mpr (Or.inl h)) fun h => (hL _).mpr (Or.inl h)
    · exact ⟨(hL _).mpr (Or.inl hlow), (hL _).mpr (Or.inl hhigh)⟩
  bound a ha hn' := by
    rcases (hL a).mp ha with h1 | rfl
    · exact hn.bound a h1 hn'
    · exact hb
  below a ha hn' := by
    rcases (hL a).mp ha with h1 | rfl
    · exact hn.below a h1 hn'
    · exact ⟨hbl, hbh⟩
  ne a ha hn' := by
    rcases (hL a).mp ha with h1 | rfl
    · exact hn.ne a h1 hn'
    · exact hne

end NodesOk

namespace TableOk

variable {g : Consts} {s s' : Store} {a b : Bdd} {f : BoolFn}

theorem reduced (h : TableOk g s) : Reduced (g.graph s.heap) g.numVars s.Live where
  toOrdered := h.nodes.ordered
  ne := h.nodes.ne
  unique a b ha hb _ _ hl hlow hhigh := by
    refine h.inv.table.unique ha hb (Node.key_eq_iff.mpr ⟨?_, hlow, hhigh⟩)
    have h1 : (s.heap.get a).lvl = (s.heap.get b).lvl := hl
    rw [h.nodes.lvl_eq ha, h.nodes.lvl_eq hb] at h1
    exact UInt64.toNat_inj.mp h1

theorem canonical (h : TableOk g s) (ha : s.Live a) (hb : s.Live b) (hf : g.Denotes s.heap a f)
    (hf' : g.Denotes s.heap b f) : a = b := h.reduced.canonical ha hb hf hf'

theorem markable (h : TableOk g s) : s.Markable s.Live (g.rank s.heap) :=
  ⟨h.nodes.has, fun _ _ ha h0 hc => h.nodes.child ha h0 hc, h.nodes.unmarked⟩

theorem len_le (h : TableOk g s) : s.set.buckets.len ≤ shl64 s.set.sizeExp := by
  rw [h.len]
  exact rangeI32_le _

/-- The hash of the constant 1 needs the whole array. -/
theorem trueHash_needs : ∀ r < 64, (splitmix64_3 1 (addr 0) (addr 0)).toNat % 2 ^ r <
    (if r % 32 = 31 then 0 else 2 ^ (r % 32)) →
      (if r % 32 = 31 then 0 else 2 ^ (r % 32)) = 2 ^ r := by decide

/-- A table with the constants in it is as long as the mask assumes. -/
theorem sized (h : TableOk g s) : s.Sized := by
  obtain ⟨i, hi, ha⟩ := h.nodes.top
  obtain ⟨hhash, hidx⟩ := h.inv.table.home i hi _ ha
  obtain ⟨h1, h2, h3⟩ := Node.key_eq_iff.mp h.nodes.topKey
  have hh : (s.heap.get g.trueId).hash = splitmix64_3 1 (addr 0) (addr 0) := by
    unfold Node.HashOk at hhash
    rw [hhash, h1, h2, h3]
    rfl
  have hmod : s.set.sizeExp % 64 % 32 = s.set.sizeExp % 32 := by omega
  have hneeds := trueHash_needs (s.set.sizeExp % 64) (Nat.mod_lt _ (by decide))
  rw [hmod] at hneeds
  rw [mask_toNat, hh] at hidx
  rw [h.len, ← hidx] at hi
  exact h.len.trans (hneeds hi)

/-- Another heap with the nodes of the table. -/
theorem congr (h : TableOk g s) (hset : s'.set = s.set)
    (hs : ∀ a, s.Live a → s'.heap.Has a ∧ (s.heap.get a).Recounted (s'.heap.get a)) :
    TableOk g s' ∧ ∀ a, s'.Live a ↔ s.Live a := by
  obtain ⟨hinv, hch⟩ := h.inv.congr (by rw [hset]) (by rw [hset]) (by rw [hset]) (by rw [hset]) hs
  have hlive := Store.live_congr (s := s) (u := s') (by rw [hset]) hch
  have hL : s'.Live = s.Live := funext fun a => propext (hlive a)
  refine ⟨⟨hinv, by rw [hset, h.owed], by rw [hset, h.len], ?_⟩, hlive⟩
  rw [hL]
  exact h.nodes.congr fun a ha => ⟨(hs a ha).1, (hs a ha).2.alike⟩

end TableOk

/-! ## The memo tables -/

/-- What a memo table is about; the two for quantifiers are never filled. -/
def Memo.op : Memo → Option (Bool → Bool → Bool)
  | .and => some fun x y => x && y
  | .or => some fun x y => x || y
  | .comp => some fun x y => x && !y
  | .quantExist | .quantForall => none

/-- `a` is a node of the table and stands for `f`. -/
def Consts.Stands (g : Consts) (s : Store) (a : Bdd) (f : BoolFn) : Prop :=
  s.Live a ∧ g.Denotes s.heap a f

def Consts.NotEntry (g : Consts) (s : Store) (k v : Bdd) : Prop :=
  ∃ f, g.Stands s k f ∧ g.Stands s v fun x => !(f x)

def Consts.Entry (g : Consts) (s : Store) (c : Memo) (k : Bdd × Bdd) (v : Bdd) : Prop :=
  ∃ op, c.op = some op ∧ ∃ f f', g.Stands s k.1 f ∧ g.Stands s k.2 f' ∧
    g.Stands s v fun x => op (f x) (f' x)

/-- The memo tables of a manager. -/
structure CachesOk (g : Manager) (s : Store) : Prop where
  notQuiet : g.notCache.Quiet
  notLen : g.notCache.entries.len = rangeI32 g.notCache.sizeExp
  notSound : g.notCache.Sound (g.NotEntry s)
  quiet : ∀ c, (g.cache c).Quiet
  len : ∀ c, (g.cache c).entries.len = rangeI32 (g.cache c).sizeExp
  sound : ∀ c, (g.cache c).Sound (g.Entry s c)

/-- The table `s'` has the nodes of `s`, as they were but for marks, links and references. -/
structure Keeps (s s' : Store) : Prop where
  live : ∀ a, s.Live a → s'.Live a
  has : ∀ a, s.Live a → s'.heap.Has a
  same : ∀ a, s.Live a → (s.heap.get a).Same (s'.heap.get a)

section
variable {g : Consts} {s s' : Store} {a : Bdd} {f f' : BoolFn}

theorem Consts.Stands.keep (hn : NodesOk g s.heap s.Live) (hk : Keeps s s') (h : g.Stands s a f) :
    g.Stands s' a f :=
  ⟨hk.live a h.1, hn.keep (fun b hb => ⟨hk.has b hb, hk.same b hb⟩) h.1 h.2⟩

theorem Consts.NotEntry.keep (hn : NodesOk g s.heap s.Live) (hk : Keeps s s') {k v : Bdd}
    (h : g.NotEntry s k v) : g.NotEntry s' k v := by
  obtain ⟨f, h1, h2⟩ := h
  exact ⟨f, h1.keep hn hk, h2.keep hn hk⟩

theorem Consts.Entry.keep (hn : NodesOk g s.heap s.Live) (hk : Keeps s s') {c : Memo}
    {k : Bdd × Bdd} {v : Bdd} (h : g.Entry s c k v) : g.Entry s' c k v := by
  obtain ⟨op, h0, f, f', h1, h2, h3⟩ := h
  exact ⟨op, h0, f, f', h1.keep hn hk, h2.keep hn hk, h3.keep hn hk⟩

end

theorem CachesOk.keep {g : Manager} {s s' : Store} (h : CachesOk g s)
    (hn : NodesOk g.toConsts s.heap s.Live) (hk : Keeps s s') : CachesOk g s' :=
  { h with
    notSound := h.notSound.mono fun _ _ he => he.keep hn hk
    sound := fun c => (h.sound c).mono fun _ _ he => he.keep hn hk }

/-! ## The world -/

namespace World

/-- The constants and the number of variables of manager `m`. -/
abbrev consts (w : World) (m : Nat) : Consts := (w.mgr m).toConsts

/-- **The invariant.** -/
structure Inv (w : World) : Prop where
  table : ∀ m, w.made m = true → TableOk (w.consts m) (w.store m)
  caches : ∀ m, w.made m = true → CachesOk (w.mgr m) (w.store m)
  disjoint : ∀ m m' a, w.made m = true → w.made m' = true → m ≠ m' → (w.store m).Live a →
    ¬ (w.store m').Live a
  scratch : ∀ t, w.freeId t ≠ 0 → w.heap.Has (w.freeId t) ∧ (w.heap.get (w.freeId t)).refCnt = 0 ∧
    ∀ m, w.made m = true → ¬ (w.store m).Live (w.freeId t)
  distinct : ∀ t u, w.freeId t ≠ 0 → w.freeId t = w.freeId u → t = u
  counted : ∀ a, (w.heap.get a).refCnt ≠ 0 → ∃ m, w.made m = true ∧ (w.store m).Live a

/-- `a` is a node of manager `m` and stands for `f`. -/
def Stands (w : World) (m : Nat) (a : Bdd) (f : BoolFn) : Prop := (w.consts m).Stands (w.store m) a f

/-- The arrays of manager `m` are as long as the masks assume. -/
structure Fits (w : World) (m : Nat) : Prop where
  set : (w.store m).Sized
  not : (w.mgr m).notCache.Sized
  cache : ∀ c, ((w.mgr m).cache c).Sized

section
variable (w : World) (m : Nat) (s : Store)

@[simp] theorem put_heap : (w.put m s).heap = s.heap := rfl
@[simp] theorem put_freeId : (w.put m s).freeId = s.freeId := rfl
@[simp] theorem put_made : (w.put m s).made = w.made := rfl

theorem put_mgr : (w.put m s).mgr m = { w.mgr m with set := s.set } := Function.update_self ..

theorem put_mgr_of_ne {k : Nat} (h : k ≠ m) : (w.put m s).mgr k = w.mgr k :=
  Function.update_of_ne h ..

theorem put_store : (w.put m s).store m = s := by
  unfold store
  rw [put_mgr]
  rfl

theorem put_consts (k : Nat) : (w.put m s).consts k = w.consts k := by
  by_cases h : k = m
  · subst h
    unfold consts
    rw [put_mgr]
  · unfold consts
    rw [put_mgr_of_ne w m s h]

theorem put_self : w.put m (w.store m) = w := by
  unfold put setMgr store
  simp only [Function.update_eq_self]

theorem setMgr_mgr (g : Manager) : (w.setMgr m g).mgr m = g := Function.update_self ..

theorem setMgr_mgr_of_ne {k : Nat} (g : Manager) (h : k ≠ m) : (w.setMgr m g).mgr k = w.mgr k :=
  Function.update_of_ne h ..

end

/-- A manager of which only counts of references change. -/
theorem Inv.other {w w' : World} (hi : w.Inv) {k : Nat} (hk : w.made k = true)
    (hmgr : w'.mgr k = w.mgr k) (hs : ∀ a, (w.store k).Live a →
      w'.heap.Has a ∧ (w.heap.get a).Recounted (w'.heap.get a)) :
    TableOk (w'.consts k) (w'.store k) ∧ CachesOk (w'.mgr k) (w'.store k) ∧
      ∀ a, (w'.store k).Live a ↔ (w.store k).Live a := by
  have hset : (w'.store k).set = (w.store k).set := by
    show (w'.mgr k).set = (w.mgr k).set
    rw [hmgr]
  obtain ⟨h1, h2⟩ := (hi.table k hk).congr hset hs
  have hcon : w'.consts k = w.consts k := by
    unfold consts
    rw [hmgr]
  refine ⟨hcon ▸ h1, ?_, h2⟩
  rw [hmgr]
  exact (hi.caches k hk).keep (hi.table k hk).nodes ⟨fun a => (h2 a).mpr, fun a ha => (hs a ha).1,
    fun a ha => (hs a ha).2.same⟩

theorem recounted_of_cell {h h' : Heap} {a : Bdd} (ha : h.Has a) (hc : h'.cell a = h.cell a) :
    h'.Has a ∧ (h.get a).Recounted (h'.get a) := by
  unfold Heap.Has Heap.get
  rw [hc]
  exact ⟨ha, .refl _⟩

/-- A record that differs in the lock and the memo tables at most. -/
theorem setMgr_store {w : World} {m : Nat} {g : Manager} (hset : g.set = (w.mgr m).set) (k : Nat) :
    (w.setMgr m g).store k = w.store k := by
  by_cases hk : k = m
  · subst hk
    unfold store
    rw [setMgr_mgr, hset]
    rfl
  · unfold store
    rw [setMgr_mgr_of_ne w m g hk]
    rfl

theorem setMgr_consts {w : World} {m : Nat} {g : Manager} (hg : g.toConsts = w.consts m) (k : Nat) :
    (w.setMgr m g).consts k = w.consts k := by
  by_cases hk : k = m
  · subst hk
    unfold consts
    rw [setMgr_mgr]
    exact hg
  · unfold consts
    rw [setMgr_mgr_of_ne w m g hk]

theorem Inv.setMgr {w : World} (hi : w.Inv) {m : Nat} {g : Manager}
    (hset : g.set = (w.mgr m).set) (hg : g.toConsts = w.consts m)
    (hc : w.made m = true → CachesOk g (w.store m)) : (w.setMgr m g).Inv := by
  have hst := setMgr_store hset
  refine ⟨fun k hk => ?_, fun k hk => ?_, fun k k' a hk hk' => ?_, fun t ht => ?_, hi.distinct,
    fun a ha => ?_⟩
  · rw [hst, setMgr_consts hg]
    exact hi.table k hk
  · rw [hst]
    by_cases hkm : k = m
    · subst hkm
      rw [setMgr_mgr]
      exact hc hk
    · rw [setMgr_mgr_of_ne w m g hkm]
      exact hi.caches k hk
  · rw [hst, hst]
    exact hi.disjoint k k' a hk hk'
  · obtain ⟨h1, h2, h3⟩ := hi.scratch t ht
    refine ⟨h1, h2, fun k hk => ?_⟩
    rw [hst]
    exact h3 k hk
  · obtain ⟨k, hk, hl⟩ := hi.counted a ha
    refine ⟨k, hk, ?_⟩
    rw [hst]
    exact hl

/-! ### The lock -/

def withLock (w : World) (m : Nat) (l : RwLock) : World := w.setMgr m { w.mgr m with rwLock := l }

section
variable (w : World) (m : Nat) (l : RwLock)

theorem withLock_mgr : (w.withLock m l).mgr m = { w.mgr m with rwLock := l } := setMgr_mgr ..

theorem withLock_mgr_of_ne {k : Nat} (h : k ≠ m) : (w.withLock m l).mgr k = w.mgr k :=
  setMgr_mgr_of_ne _ _ _ h

@[simp] theorem withLock_heap : (w.withLock m l).heap = w.heap := rfl
@[simp] theorem withLock_made : (w.withLock m l).made = w.made := rfl
@[simp] theorem withLock_freeId : (w.withLock m l).freeId = w.freeId := rfl

@[simp] theorem withLock_store (k : Nat) : (w.withLock m l).store k = w.store k :=
  setMgr_store (g := { w.mgr m with rwLock := l }) rfl k

@[simp] theorem withLock_consts (k : Nat) : (w.withLock m l).consts k = w.consts k :=
  setMgr_consts (g := { w.mgr m with rwLock := l }) rfl k

theorem withLock_self : w.withLock m (w.mgr m).rwLock = w := by
  unfold withLock setMgr
  simp only [Function.update_eq_self]

theorem withLock_withLock (l' : RwLock) : (w.withLock m l).withLock m l' = w.withLock m l' := by
  unfold withLock setMgr
  simp only [Function.update_self, Function.update_idem]

theorem withLock_fits (k : Nat) : (w.withLock m l).Fits k ↔ w.Fits k := by
  have hs := withLock_store w m l k
  have hmgr : ((w.withLock m l).mgr k).notCache = (w.mgr k).notCache ∧
      ((w.withLock m l).mgr k).cache = (w.mgr k).cache := by
    by_cases h : k = m
    · subst h
      rw [withLock_mgr]
      exact ⟨rfl, rfl⟩
    · rw [withLock_mgr_of_ne w m l h]
      exact ⟨rfl, rfl⟩
  constructor
  · rintro ⟨h1, h2, h3⟩
    rw [hs] at h1
    rw [hmgr.1] at h2
    rw [hmgr.2] at h3
    exact ⟨h1, h2, h3⟩
  · rintro ⟨h1, h2, h3⟩
    refine ⟨by rw [hs]; exact h1, by rw [hmgr.1]; exact h2, ?_⟩
    rw [hmgr.2]
    exact h3

end

theorem Inv.withLock {w : World} (hi : w.Inv) (m : Nat) (l : RwLock) : (w.withLock m l).Inv :=
  hi.setMgr rfl rfl fun hm => ⟨(hi.caches m hm).notQuiet, (hi.caches m hm).notLen,
    (hi.caches m hm).notSound, (hi.caches m hm).quiet, (hi.caches m hm).len, (hi.caches m hm).sound⟩

/-! ### The counts of references -/

/-- The count of references of one node changes. -/
def recount (w : World) (a : Bdd) (f : UInt64 → UInt64) : World :=
  { w with heap := w.heap.modify a fun n => { n with refCnt := f n.refCnt } }

section
variable (w : World) (a : Bdd) (f : UInt64 → UInt64)

@[simp] theorem recount_mgr : (w.recount a f).mgr = w.mgr := rfl
@[simp] theorem recount_made : (w.recount a f).made = w.made := rfl
@[simp] theorem recount_freeId : (w.recount a f).freeId = w.freeId := rfl
@[simp] theorem recount_frees : (w.recount a f).heap.frees = w.heap.frees := rfl

@[simp] theorem recount_has (b : Bdd) : (w.recount a f).heap.Has b ↔ w.heap.Has b :=
  Heap.modify_has

variable {f} in
theorem recount_self (h : ∀ c, f c = c) : w.recount a f = w := by
  have hcell : (w.recount a f).heap.cell = w.heap.cell := by
    funext b
    by_cases hb : b = a
    · subst hb
      show (w.heap.modify b _).cell b = _
      rw [Heap.modify_cell_self]
      cases w.heap.cell b with
      | none => rfl
      | some n =>
        rw [Option.map_some, h n.refCnt]
    · exact Heap.modify_cell_of_ne hb
  unfold recount at hcell ⊢
  rw [show w.heap.modify a (fun n => { n with refCnt := f n.refCnt }) = w.heap from
    Heap.ext hcell rfl rfl rfl]

theorem recount_recount (f' : UInt64 → UInt64) :
    (w.recount a f).recount a f' = w.recount a (f' ∘ f) := by
  have hcell : ((w.recount a f).recount a f').heap.cell = (w.recount a (f' ∘ f)).heap.cell := by
    funext b
    by_cases hb : b = a
    · subst hb
      show ((w.heap.modify b _).modify b _).cell b = (w.heap.modify b _).cell b
      rw [Heap.modify_cell_self, Heap.modify_cell_self, Heap.modify_cell_self, Option.map_map]
      rfl
    · show ((w.heap.modify a _).modify a _).cell b = (w.heap.modify a _).cell b
      rw [Heap.modify_cell_of_ne hb, Heap.modify_cell_of_ne hb, Heap.modify_cell_of_ne hb]
  unfold recount at hcell ⊢
  congr 1
  exact Heap.ext hcell rfl rfl rfl

theorem recount_node (b : Bdd) : (w.heap.get b).Recounted ((w.recount a f).heap.get b) := by
  by_cases hb : b = a ∧ w.heap.Has a
  · obtain ⟨rfl, ha⟩ := hb
    show Node.Recounted _ ((w.heap.modify b _).get b)
    rw [Heap.modify_get_self ha]
    exact ⟨rfl, rfl, rfl, rfl, rfl⟩
  · have hcell : (w.recount a f).heap.get b = w.heap.get b := by
      by_cases hba : b = a
      · subst hba
        have hn : ¬ w.heap.Has b := fun h => hb ⟨rfl, h⟩
        rw [Heap.get_of_not_has hn, Heap.get_of_not_has fun h => hn ((recount_has w b f b).mp h)]
      · exact Heap.modify_get_of_ne hba
    rw [hcell]
    exact .refl _

theorem recount_refs_self (ha : w.heap.Has a) :
    ((w.recount a f).heap.get a).refCnt = f (w.heap.get a).refCnt := by
  show ((w.heap.modify a _).get a).refCnt = _
  rw [Heap.modify_get_self ha]

theorem recount_refs_of_ne {b : Bdd} (hb : b ≠ a) :
    ((w.recount a f).heap.get b).refCnt = (w.heap.get b).refCnt := by
  show ((w.heap.modify a _).get b).refCnt = _
  rw [Heap.modify_get_of_ne hb]

end

theorem recount_live {w : World} (hi : w.Inv) {k : Nat} (hk : w.made k = true) (a : Bdd)
    (f : UInt64 → UInt64) (b : Bdd) : ((w.recount a f).store k).Live b ↔ (w.store k).Live b :=
  (hi.other hk (congrFun (recount_mgr w a f) k) fun c hc => ⟨(recount_has w a f c).mpr
    ((hi.table k hk).nodes.has c hc), recount_node w a f c⟩).2.2 b

/-- The invariant does not depend on how often a node of a table is referenced. -/
theorem Inv.recount {w : World} (hi : w.Inv) {m : Nat} (hm : w.made m = true) {a : Bdd}
    (ha : (w.store m).Live a) (f : UInt64 → UInt64) : (w.recount a f).Inv := by
  have hother := fun k hk => hi.other hk (congrFun (recount_mgr w a f) k) fun c hc =>
    ⟨(recount_has w a f c).mpr ((hi.table k hk).nodes.has c hc), recount_node w a f c⟩
  refine ⟨fun k hk => (hother k hk).1, fun k hk => (hother k hk).2.1, fun k k' b hk hk' hne hb hb' => ?_,
    fun t ht => ?_, hi.distinct, fun b hb => ?_⟩
  · exact hi.disjoint k k' b hk hk' hne (((hother k hk).2.2 b).mp hb) (((hother k' hk').2.2 b).mp hb')
  · obtain ⟨h1, h2, h3⟩ := hi.scratch t ht
    have hne : w.freeId t ≠ a := fun he => h3 m hm (he ▸ ha)
    refine ⟨(recount_has ..).mpr h1, ?_, fun k hk hl => h3 k hk (((hother k hk).2.2 _).mp hl)⟩
    rw [← h2]
    exact recount_refs_of_ne w a f hne
  · by_cases hba : b = a
    · subst hba
      exact ⟨m, hm, ((hother m hm).2.2 b).mpr ha⟩
    · rw [recount_refs_of_ne w a f hba] at hb
      obtain ⟨k, hk, hl⟩ := hi.counted b hb
      exact ⟨k, hk, ((hother k hk).2.2 b).mpr hl⟩

end World

end Tobdd
