import Tobdd.Table

/-!
# `get_or_insert`

One thread searches the chain of its bucket and links its node `p` in, while others may
link theirs.  `Inserted t p` is what one step of the thread `t` does to the table,
`Steady t p` is what `t` may rely on while others step; a step of one thread is steady
for every other (`Inserted.steady`).

    wp_getOrInsert:  `get_or_insert(p)` answers `(p, true)` with `p` linked, or `(c, false)`
                     with `c` a linked node of the same key and `p` not linked

With nobody else about, a bound on the length of the chain is fuel enough.
-/

namespace Tobdd.Store

open Resume Linked

/-- Inserts make the chains longer; a linked node changes at most its link. -/
structure Grows (s s' : Store) : Prop where
  len : s'.set.buckets.len = s.set.buckets.len
  sizeExp : s'.set.sizeExp = s.set.sizeExp
  chain : ∀ i, i < s.set.buckets.len → (s.chain i).Sublist (s'.chain i)
  node : ∀ a, s.Live a → (s.heap.get a).Relinked (s'.heap.get a)

theorem Grows.refl (s : Store) : Grows s s := ⟨rfl, rfl, fun _ _ => .refl _, fun _ _ => .refl _⟩

theorem Grows.live {s s' : Store} (h : Grows s s') {a : Bdd} (ha : s.Live a) : s'.Live a := by
  obtain ⟨i, hi, ha⟩ := ha
  exact ⟨i, h.len ▸ hi, (h.chain i hi).subset ha⟩

theorem Grows.trans {s₁ s₂ s₃ : Store} (h1 : Grows s₁ s₂) (h2 : Grows s₂ s₃) : Grows s₁ s₃ where
  len := h2.len.trans h1.len
  sizeExp := h2.sizeExp.trans h1.sizeExp
  chain i hi := (h1.chain i hi).trans (h2.chain i (h1.len ▸ hi))
  node a ha := (h1.node a ha).trans (h2.node a (h1.live ha))

theorem Grows.key {s s' : Store} (h : Grows s s') {a : Bdd} (ha : s.Live a) : s'.key a = s.key a :=
  (h.node a ha).key

/-- A step of `t`, which inserts `p`. -/
structure Inserted (t : Nat) (p : Bdd) (s s' : Store) : Prop where
  inv : s'.Inv
  grows : Grows s s'
  new : ∀ a, s'.Live a → s.Live a ∨ a = p
  cell : ∀ a, ¬ s.Live a → a ≠ p → s'.heap.cell a = s.heap.cell a
  scratch : (s.heap.get p).Relinked (s'.heap.get p)
  has : ∀ a, s'.heap.Has a ↔ s.heap.Has a
  owed : ∀ u, u ≠ t → s'.set.owed.count u = s.set.owed.count u
  frees : s'.heap.frees = s.heap.frees
  brk : s'.heap.brk = s.heap.brk
  freeId : s'.freeId = s.freeId

theorem Inserted.refl {t : Nat} {p : Bdd} {s : Store} (h : s.Inv) : Inserted t p s s :=
  ⟨h, .refl s, fun _ => Or.inl, fun _ _ _ => rfl, .refl _, fun _ => Iff.rfl, fun _ _ => rfl, rfl,
    rfl, rfl⟩

theorem Inserted.trans {t : Nat} {p : Bdd} {s₁ s₂ s₃ : Store} (h1 : Inserted t p s₁ s₂)
    (h2 : Inserted t p s₂ s₃) : Inserted t p s₁ s₃ where
  inv := h2.inv
  grows := h1.grows.trans h2.grows
  new a ha := by
    rcases h2.new a ha with h | h
    · exact h1.new a h
    · exact Or.inr h
  cell a ha hp := by
    have ha2 : ¬ s₂.Live a := fun h => (h1.new a h).elim ha hp
    exact (h2.cell a ha2 hp).trans (h1.cell a ha hp)
  scratch := h1.scratch.trans h2.scratch
  has a := (h2.has a).trans (h1.has a)
  owed u hu := (h2.owed u hu).trans (h1.owed u hu)
  frees := h2.frees.trans h1.frees
  brk := h2.brk.trans h1.brk
  freeId := h2.freeId.trans h1.freeId

/-- What the thread `t` with its node `p` relies on. -/
structure Steady (t : Nat) (p : Bdd) (s s' : Store) : Prop where
  inv : s'.Inv
  grows : Grows s s'
  mine : ¬ s.Live p → ¬ s'.Live p ∧ s'.heap.cell p = s.heap.cell p
  owed : s'.set.owed.count t = s.set.owed.count t

theorem Steady.refl {t : Nat} {p : Bdd} {s : Store} (h : s.Inv) : Steady t p s s :=
  ⟨h, .refl s, fun hp => ⟨hp, rfl⟩, rfl⟩

theorem Inserted.steady {t u : Nat} {p q : Bdd} {s s' : Store} (h : Inserted u q s s')
    (htu : t ≠ u) (hpq : p ≠ q) : Steady t p s s' :=
  ⟨h.inv, h.grows, fun hp => ⟨fun hl => (h.new p hl).elim hp hpq, h.cell p hp hpq⟩, h.owed t htu⟩

/-! ## The place of a key -/

/-- `q` is on chain `i`, and the nodes up to it have keys below `k`. -/
def Prev (s : Store) (i : Nat) (k : Key) (q : Place) : Prop :=
  ∃ l₁ l₂, s.chain i = l₁ ++ l₂ ∧ endPlace Place.next (.head i) l₁ = q ∧ ∀ a ∈ l₁, s.key a < k

theorem Prev.head {s : Store} {i : Nat} {k : Key} : Prev s i k (.head i) :=
  ⟨[], s.chain i, rfl, rfl, fun a ha => by cases ha⟩

theorem Table.prev_next {s : Store} (h : s.Table) {i : Nat} (hi : i < s.set.buckets.len) {k : Key}
    {a : Bdd} (ha : a ∈ s.chain i) (hk : s.key a < k) : Prev s i k (.next a) := by
  obtain ⟨l₁, l₂, hl⟩ := List.append_of_mem ha
  refine ⟨l₁ ++ [a], l₂, by rw [hl, List.append_assoc]; rfl, endPlace_concat, fun b hb => ?_⟩
  have hs := h.sorted i hi
  rw [hl] at hs
  rcases List.mem_append.mp hb with hb | hb
  · exact lt_trans ((List.pairwise_append.mp hs).2.2 b hb a List.mem_cons_self) hk
  · rw [List.mem_singleton.mp hb]
    exact hk

theorem Prev.grows {s s' : Store} {i : Nat} {k : Key} {q : Place} (h : Prev s i k q)
    (hi : i < s.set.buckets.len) (hg : Grows s s') (ht : s'.Table) : Prev s' i k q := by
  obtain ⟨l₁, l₂, hl, hq, hlt⟩ := h
  rcases endPlace_cases Place.next (.head i) l₁ with ⟨-, h⟩ | ⟨a, ha, h⟩
  · rw [← hq, h]
    exact Prev.head
  · have hm : a ∈ s.chain i := by
      rw [hl]
      exact List.mem_append_left _ ha
    rw [← hq, h]
    refine ht.prev_next (hg.len ▸ hi) ((hg.chain i hi).subset hm) ?_
    rw [hg.key ⟨i, hi, hm⟩]
    exact hlt a ha

theorem Prev.missing {s : Store} {i : Nat} {k : Key} {q : Place} (h : Prev s i k q) (ht : s.Table)
    (hi : i < s.set.buckets.len) : s.missing q = none := by
  obtain ⟨l₁, l₂, hl, rfl, -⟩ := h
  refine ht.chains.missing_end hi fun a ha => ?_
  rw [hl]
  exact List.mem_append_left _ ha

/-- What stands at a place of the chain: nothing, or the next node. -/
theorem Prev.load {s : Store} {i : Nat} {k : Key} {q : Place} (h : Prev s i k q) (ht : s.Table)
    (hi : i < s.set.buckets.len) : s.ld q = 0 ∨ s.ld q ∈ s.chain i := by
  obtain ⟨l₁, l₂, hl, rfl, -⟩ := h
  have hseg := ht.chains.seg i hi
  rw [hl] at hseg
  rw [ld_eq, hseg.load]
  cases l₂ with
  | nil => exact Or.inl rfl
  | cons a l =>
    right
    rw [hl]
    exact List.mem_append_right _ List.mem_cons_self

/-- A node whose successor is known to lie above `k` has its place found. -/
theorem Prev.between {s : Store} {i : Nat} {k : Key} {q : Place} (h : Prev s i k q) (ht : s.Table)
    (hi : i < s.set.buckets.len) (hc : s.ld q = 0 ∨ k < s.key (s.ld q)) :
    ∃ l₁ l₂, s.chain i = l₁ ++ l₂ ∧ endPlace Place.next (.head i) l₁ = q ∧
      (∀ a ∈ l₁, s.key a < k) ∧ ∀ a ∈ l₂, k < s.key a := by
  obtain ⟨l₁, l₂, hl, rfl, hlt⟩ := h
  refine ⟨l₁, l₂, hl, rfl, hlt, fun a ha => ?_⟩
  have hseg := ht.chains.seg i hi
  have hs := ht.sorted i hi
  rw [hl] at hseg hs
  rw [ld_eq, hseg.load] at hc
  cases l₂ with
  | nil => cases ha
  | cons b l =>
    have hb : k < s.key b := by
      rcases hc with hc | hc
      · have hb : s.heap.Has b := ht.chains.has i hi b (by rw [hl]; simp)
        exact absurd hc hb.ne_zero
      · exact hc
    rcases List.mem_cons.mp ha with rfl | ha
    · exact hb
    · exact lt_trans hb ((List.pairwise_cons.mp (List.pairwise_append.mp hs).2.1).1 a ha)

theorem Prev.mem_of_next {s : Store} {i : Nat} {k : Key} {a : Bdd} (h : Prev s i k (.next a))
    (hi : i < s.set.buckets.len) : s.Live a := by
  obtain ⟨l₁, l₂, hl, he, -⟩ := h
  rcases endPlace_cases Place.next (.head i) l₁ with ⟨-, h⟩ | ⟨b, hb, h⟩
  · rw [h] at he
    cases he
  · rw [h] at he
    injection he with he
    subst he
    exact ⟨i, hi, by rw [hl]; exact List.mem_append_left _ hb⟩

/-! ## Linking -/

/-- `p` is the thread's own node with the key `k`, not linked, and bucket `i` is its place. -/
structure Ready (t : Nat) (p : Bdd) (i : Nat) (k : Key) (s : Store) : Prop where
  inv : s.Inv
  has : s.heap.Has p
  fresh : ¬ s.Live p
  hash : (s.heap.get p).HashOk
  idx : maskIdx (s.heap.get p).hash s.set.sizeExp = i
  key : s.key p = k
  owed : s.set.owed.count t = 0

theorem Ready.steady {t : Nat} {p : Bdd} {i : Nat} {k : Key} {s s' : Store} (h : Ready t p i k s)
    (hs : Steady t p s s') : Ready t p i k s' := by
  obtain ⟨hl, hc⟩ := hs.mine h.fresh
  have hg : s'.heap.get p = s.heap.get p := by
    unfold Heap.get
    rw [hc]
  refine ⟨hs.inv, ?_, hl, by rw [hg]; exact h.hash, ?_, ?_, ?_⟩
  · unfold Heap.Has
    rw [hc]
    exact h.has
  · rw [hg, hs.grows.sizeExp]
    exact h.idx
  · unfold Store.key
    rw [hg]
    exact h.key
  · rw [hs.owed, h.owed]

/-- The store after a successful exchange of `t`. -/
def linkedBy (s : Store) (t : Nat) (p : Bdd) (q : Place) : Store :=
  let s' := s.put p q
  { s' with set := { s'.set with owed := t :: s'.set.owed } }

theorem Ready.link {t : Nat} {p : Bdd} {i : Nat} {k : Key} {s : Store} {q : Place}
    (h : Ready t p i k s) (hi : i < s.set.buckets.len) (hq : Prev s i k q)
    (hc : s.ld q = 0 ∨ k < s.key (s.ld q)) (hnext : s.ld (.next p) = s.ld q) :
    Inserted t p s (s.linkedBy t p q) ∧ p ∈ (s.linkedBy t p q).chain i := by
  obtain ⟨l₁, l₂, hl, rfl, hlt, hgt⟩ := hq.between h.inv.table hi hc
  rw [← h.key] at hlt hgt
  obtain ⟨htab, hchain⟩ := h.inv.table.insert hi hl h.has h.fresh hnext h.hash h.idx hlt hgt
  generalize hqe : endPlace Place.next (.head i) l₁ = q at *
  -- the ghost fields do not matter for the chains
  have hch : ∀ j, j < s.set.buckets.len →
      (s.linkedBy t p q).chain j = Function.update s.chain i (l₁ ++ p :: l₂) j := hchain
  have hlen : (s.linkedBy t p q).set.buckets.len = s.set.buckets.len := put_len s p q
  have htab' : (s.linkedBy t p q).Table := ⟨htab.chains, htab.sorted, htab.home⟩
  have hnew := live_insert hlen hi hl hch
  have hget : ∀ a, (s.heap.get a).Relinked ((s.linkedBy t p q).heap.get a) := put_get s p q
  refine ⟨⟨⟨htab', ?_⟩, ⟨hlen, put_sizeExp s p q, fun j hj => ?_, fun a _ => hget a⟩,
    fun a => (hnew a).mp, fun a ha hap => ?_, hget p, fun a => put_has s p q, fun u hu => ?_,
    put_frees s p q, put_brk s p q, put_freeId s p q⟩, ?_⟩
  · -- one node more, and one more to be counted
    have hperm : (s.linkedBy t p q).nodes.Perm (p :: s.nodes) := by
      refine (List.perm_ext_iff_of_nodup (nodes_nodup htab'.chains) ?_).mpr fun a => ?_
      · exact List.nodup_cons.mpr ⟨fun hm => h.fresh (mem_nodes.mp hm),
          nodes_nodup h.inv.table.chains⟩
      · rw [mem_nodes, hnew, List.mem_cons, mem_nodes]
        exact Or.comm
    have hcount := h.inv.counted
    unfold Counted at hcount ⊢
    rw [hperm.length_eq, List.length_cons]
    show (s.put p q).set.numEntry + (t :: (s.put p q).set.owed).length = _
    rw [put_numEntry, put_owed, List.length_cons]
    omega
  · rw [hch j hj]
    by_cases hji : j = i
    · subst hji
      rw [Function.update_self, hl]
      exact (List.Sublist.refl l₁).append (List.sublist_cons_self p l₂)
    · rw [Function.update_of_ne hji]
  · refine put_cell_of_ne s p q fun he => ?_
    rcases endPlace_cases Place.next (.head i) l₁ with ⟨-, h'⟩ | ⟨b, hb, h'⟩
    · rw [← hqe, h'] at he
      cases he
    · rw [← hqe, h'] at he
      injection he with he
      subst he
      exact ha ⟨i, hi, by rw [hl]; exact List.mem_append_left _ hb⟩
  · show List.count u (t :: (s.put p q).set.owed) = _
    rw [put_owed, List.count_cons_of_ne (Ne.symm hu)]
  · rw [hch i hi, Function.update_self]
    simp

/-- Setting the link of a node that is not linked. -/
theorem Ready.setNext {t : Nat} {p : Bdd} {i : Nat} {k : Key} {s : Store} (h : Ready t p i k s)
    (b : Bdd) :
    Inserted t p s (s.put b (.next p)) ∧ Ready t p i k (s.put b (.next p)) ∧
      ∀ j, j < s.set.buckets.len → (s.put b (.next p)).chain j = s.chain j := by
  have hoff : ∀ a, a ≠ p → (s.put b (.next p)).heap.cell a = s.heap.cell a := fun a hap =>
    put_cell_of_ne s b _ fun he => hap (by injection he with he; exact he.symm)
  obtain ⟨hinv, hchain⟩ := h.inv.congr (u := s.put b (.next p)) rfl rfl rfl rfl fun a ha => by
    have hap : a ≠ p := fun hap => h.fresh (hap ▸ ha)
    unfold Heap.Has Heap.get
    rw [hoff a hap]
    exact ⟨h.inv.table.has ha, .refl _⟩
  have hlive := live_congr (s := s) (u := s.put b (.next p)) rfl hchain
  have hget := put_get s b (.next p)
  refine ⟨⟨hinv, ⟨rfl, rfl, fun j hj => by rw [hchain j hj], fun a _ => hget a⟩,
    fun a ha => Or.inl ((hlive a).mp ha), fun a _ => hoff a, hget p, fun a => put_has s b _,
    fun _ _ => rfl, rfl, rfl, rfl⟩, ?_, hchain⟩
  · refine ⟨hinv, (put_has s b _).mpr h.has, fun hl => h.fresh ((hlive p).mp hl),
      (hget p).hashOk h.hash, ?_, ?_, h.owed⟩
    · rw [(hget p).hash]
      exact h.idx
    · rw [put_key]
      exact h.key

/-- `num_entry.fetch_add(1)`, owed by `t`. -/
theorem inserted_addEntry {t : Nat} {p : Bdd} {s : Store} (h : s.Inv)
    (ht : s.set.owed.count t = 1) :
    Inserted t p s { s with set :=
      { s.set with numEntry := s.set.numEntry + 1, owed := s.set.owed.erase t } } := by
  refine ⟨⟨⟨h.table.chains, h.table.sorted, h.table.home⟩, ?_⟩,
    ⟨rfl, rfl, fun _ _ => .refl _, fun _ _ => .refl _⟩, fun _ => Or.inl, fun _ _ _ => rfl, .refl _,
    fun _ => Iff.rfl, fun u hu => List.count_erase_of_ne hu, rfl, rfl, rfl⟩
  have hm : t ∈ s.set.owed := List.count_pos_iff.mp (by omega)
  have hpos := List.length_pos_of_mem hm
  have hc := h.counted
  unfold Counted at hc ⊢
  show s.set.numEntry + 1 + (s.set.owed.erase t).length = s.nodes.length
  rw [List.length_erase_of_mem hm]
  omega

/-! ## The code -/

/-- A logic in which `t` can be followed through `get_or_insert(p)`; `tol` says whether
running out of rounds is tolerated. -/
structure Inserting (L : Logic mem Store) (t : Nat) (p : Bdd) (tol : Prop) : Prop where
  exec : L.exec = Store.exec t
  safe : ∀ o s, L.safe o s
  rely : ∀ s s', s.Inv → L.rely s s' → Steady t p s s'
  guar : ∀ s s', s.Inv → Inserted t p s s' → L.guar s s'
  spin : tol → ∀ s, L.stops .spin s
  panic : ∀ s, ¬ s.Sized → L.stops .panic s
  calm : tol ∨ ∀ s s', L.rely s s' → s' = s

section
variable {L : Logic mem Store} {t : Nat} {p : Bdd} {tol : Prop} (hL : Inserting L t p tol)
include hL

/-- A step of `t` that is one of an insert. -/
theorem Inserting.step {o : Access} {s s' : Store} {r : mem.Res o}
    {P : mem.Res o → Store → Prop} (hs : s.Inv) (he : Store.exec t o s = .ok (r, s'))
    (h : Inserted t p s s') (hP : P r s') : L.Does o s P :=
  .of_ok (hL.safe o s) (by rw [hL.exec]; exact he) fun _ => ⟨hL.guar s s' hs h, hP⟩

theorem Inserting.wp_look {o : Access} {a : Bdd} {f : Node → mem.Res o}
    {Q : mem.Res o → Store → Prop} {s : Store} (he : ∀ s, Store.exec t o s = s.look a f)
    (hs : s.Inv)
    (h : ∀ s', L.rely s s' → Steady t p s s' → s'.heap.Has a ∧ Q (f (s'.heap.get a)) s') :
    wp L (acc o) Q s := by
  intro s' hr
  have hst := hL.rely s s' hs hr
  obtain ⟨ha, hq⟩ := h s' hr hst
  refine hL.step hst.inv ?_ (.refl hst.inv) hq
  rw [he]
  unfold look
  rw [ha.cell]

/-- With nobody else about, nothing changes between two steps. -/
theorem Inserting.still {s s' : Store} {P : Store → Prop} (hr : L.rely s s') (h : tol ∨ P s) :
    tol ∨ P s' := by
  rcases hL.calm with ht | hc
  · exact Or.inl ht
  · rw [hc s s' hr]
    exact h

/-- The link of a place on the chain is loaded. -/
theorem Inserting.wp_load {i : Nat} {k : Key} {q : Place} {Q : Bdd → Store → Prop} {s : Store}
    (hs : s.Inv) (hi : i < s.set.buckets.len) (hq : Prev s i k q)
    (h : ∀ s', L.rely s s' → Steady t p s s' → Prev s' i k q → Q (s'.ld q) s') :
    wp L (acc (.load q)) Q s := by
  intro s' hr
  have hst := hL.rely s s' hs hr
  have hi' : i < s'.set.buckets.len := by rw [hst.grows.len]; exact hi
  have hq' := hq.grows hi hst.grows hst.inv.table
  refine hL.step hst.inv ?_ (.refl hst.inv) (h s' hr hst hq')
  exact exec_load (hq'.missing hst.inv.table hi')

/-- The rest of the chain is shorter than the fuel, and `c` is where it begins. -/
def Ahead (s : Store) (i : Nat) (q : Place) (c : Bdd) (n : Nat) : Prop :=
  s.ld q = c ∧
    ∃ l₁ l₂, s.chain i = l₁ ++ l₂ ∧ endPlace Place.next (.head i) l₁ = q ∧ l₂.length < n

omit hL in
theorem Ahead.next {s : Store} {i : Nat} {q : Place} {c : Bdd} {n : Nat} (h : Ahead s i q c (n + 1))
    (ht : s.Table) (hi : i < s.set.buckets.len) (hc : c ≠ 0) :
    Ahead s i (.next c) (s.ld (.next c)) n := by
  obtain ⟨hld, l₁, l₂, hl, rfl, hn⟩ := h
  have hseg := ht.chains.seg i hi
  rw [hl] at hseg
  rw [ld_eq, hseg.load] at hld
  cases l₂ with
  | nil => exact absurd hld.symm hc
  | cons a l =>
    obtain rfl : a = c := hld
    refine ⟨rfl, l₁ ++ [a], l, by rw [hl, List.append_assoc]; rfl, endPlace_concat, ?_⟩
    rw [List.length_cons] at hn
    omega

omit hL in
theorem Ahead.not_zero {s : Store} {i : Nat} {q : Place} {c : Bdd} : ¬ Ahead s i q c 0 := by
  rintro ⟨-, l₁, l₂, -, -, h⟩
  exact Nat.not_lt_zero _ h

/-- What the search of `get_or_insert` finds. -/
def FoundOk (t : Nat) (p : Bdd) (i : Nat) (k : Key) (tol : Prop) (r : LockFreeSet.Found)
    (s : Store) : Prop :=
  Ready t p i k s ∧ i < s.set.buckets.len ∧
  match r with
  | .equal c => c ∈ s.chain i ∧ s.key c = k
  | .between q c => Prev s i k q ∧ (c = 0 ∨ c ∈ s.chain i ∧ k < s.key c) ∧ (tol ∨ s.ld q = c)

theorem wp_walk {i : Nat} {k : Key} (n : Nat) (q : Place) (c : Bdd) (s : Store)
    (h : Ready t p i k s) (hi : i < s.set.buckets.len) (hq : Prev s i k q)
    (hc : c = 0 ∨ c ∈ s.chain i) (hn : tol ∨ Ahead s i q c n) :
    wp L (LockFreeSet.walk k n q c) (FoundOk t p i k tol) s := by
  induction n generalizing q c s with
  | zero =>
    have ht : tol := hn.resolve_right Ahead.not_zero
    exact fun s' _ => .of_error (hL.safe _ _) (by rw [hL.exec]; rfl) (hL.spin ht s')
  | succ n ih =>
    refine wp_ite _ (fun h0 => ?_) fun h0 => ?_
    · exact ⟨h, hi, hq, Or.inl h0, hn.imp_right fun ha => ha.1⟩
    have hc := hc.resolve_left h0
    refine wp_bind.mpr (hL.wp_look (o := .key c) (f := Node.key) (fun _ => rfl) h.inv
      fun s1 hr hst => ?_)
    -- the key of a linked node does not change
    have h1 := h.steady hst
    have hi1 : i < s1.set.buckets.len := by rw [hst.grows.len]; exact hi
    have hq1 := hq.grows hi hst.grows hst.inv.table
    have hc1 : c ∈ s1.chain i := (hst.grows.chain i hi).subset hc
    have hn1 := hL.still (P := fun s => Ahead s i q c (n + 1)) hr hn
    refine ⟨hst.inv.table.chains.has i hi1 c hc1, ?_⟩
    have hkey : (s1.heap.get c).key = s1.key c := rfl
    rw [hkey]
    cases hcmp : cmp (s1.key c) k with
    | eq => exact ⟨h1, hi1, hc1, (cmp_eq_eq_iff _ _).mp hcmp⟩
    | gt =>
      exact ⟨h1, hi1, hq1, Or.inr ⟨hc1, (cmp_eq_gt_iff _ _).mp hcmp⟩, hn1.imp_right fun ha => ha.1⟩
    | lt =>
      have hlt : s1.key c < k := (cmp_eq_lt_iff _ _).mp hcmp
      refine wp_bind.mpr (hL.wp_load h1.inv hi1 (h1.inv.table.prev_next hi1 hc1 hlt)
        fun s2 hr2 hst2 hq2 => ?_)
      have hi2 : i < s2.set.buckets.len := by rw [hst2.grows.len]; exact hi1
      refine ih _ _ s2 (h1.steady hst2) hi2 hq2 (hq2.load hst2.inv.table hi2) ?_
      exact (hL.still (P := fun s => Ahead s i q c (n + 1)) hr2 hn1).imp_right
        fun ha => ha.next hst2.inv.table hi2 h0

/-- What `get_or_insert(p)` answers. -/
def InsertOk (t : Nat) (p : Bdd) (k : Key) (r : Bdd × Bool) (s : Store) : Prop :=
  s.Inv ∧ s.set.owed.count t = 0 ∧ s.Live r.1 ∧ s.key r.1 = k ∧
    if r.2 then r.1 = p else ¬ s.Live p

/-- The fuel suffices for the chain of bucket `i`. -/
def Short (s : Store) (i n : Nat) : Prop :=
  0 < n ∧ (i < s.set.buckets.len → (s.chain i).length + 1 < n)

theorem wp_retry {i : Nat} {k : Key} (n : Nat) (s : Store) (h : Ready t p i k s)
    (hn : tol ∨ Short s i n) :
    wp L (LockFreeSet.retry p k (.head i) n) (InsertOk t p k) s := by
  induction n generalizing s with
  | zero =>
    have ht : tol := hn.resolve_right fun hs => absurd hs.1 (Nat.lt_irrefl 0)
    exact fun s' _ => .of_error (hL.safe _ _) (by rw [hL.exec]; rfl) (hL.spin ht s')
  | succ n ih =>
    unfold LockFreeSet.retry
    refine wp_bind.mpr fun s1 hr1 => ?_
    have hst1 := hL.rely s s1 h.inv hr1
    have h1 := h.steady hst1
    have hn1 := hL.still (P := fun s => Short s i (n + 1)) hr1 hn
    by_cases hi : i < s1.set.buckets.len
    swap
    · -- the mask points behind the array
      have he : Store.exec t (.load (.head i)) s1 = .error .panic := by
        simp only [Store.exec, missing, if_neg hi]
      refine .of_error (hL.safe _ _) (by rw [hL.exec]; exact he) (hL.panic s1 fun hsz => hi ?_)
      rw [hsz, ← h1.idx]
      exact maskIdx_lt _ _
    refine hL.step (o := .load (.head i)) h1.inv (exec_load (missing_head hi)) (.refl h1.inv) ?_
    have hahead : tol ∨ Ahead s1 i (.head i) (s1.ld (.head i)) n :=
      hn1.imp_right fun hlt => ⟨rfl, [], s1.chain i, rfl, rfl, by have := hlt.2 hi; omega⟩
    refine wp_bind.mpr (wp_mono (fun r s2 hf => ?_) (wp_walk hL n (.head i) _ s1 h1 hi .head
      ((Prev.head (k := k)).load h1.inv.table hi) hahead))
    obtain ⟨h2, hi2, hf⟩ := hf
    cases r with
    | equal c =>
      obtain ⟨hc, hkeyp⟩ := hf
      exact ⟨h2.inv, h2.owed, ⟨i, hi2, hc⟩, hkeyp, h2.fresh⟩
    | between q c =>
      obtain ⟨hq, hc, hld⟩ := hf
      -- the new node's own link is written first
      refine wp_bind.mpr fun s3 hr3 => ?_
      have hst3 := hL.rely s2 s3 h2.inv hr3
      have h3 := h2.steady hst3
      have hi3 : i < s3.set.buckets.len := by rw [hst3.grows.len]; exact hi2
      obtain ⟨hins, h4, hch⟩ := h3.setNext c
      have hld3 := hL.still (P := fun s => s.ld q = c) hr3 hld
      have hq3 := hq.grows hi2 hst3.grows h3.inv.table
      have hc3 : c = 0 ∨ c ∈ s3.chain i ∧ k < s3.key c := hc.imp_right fun hm =>
        ⟨(hst3.grows.chain i hi2).subset hm.1, by
          rw [hst3.grows.key ⟨i, hi2, hm.1⟩]
          exact hm.2⟩
      refine hL.step (o := .store (.next p) c) h3.inv (exec_store (missing_next h3.has)) hins ?_
      have hqp : q ≠ .next p := by
        rintro rfl
        exact h3.fresh (hq3.mem_of_next hi3)
      have hq4 : Prev (s3.put c (.next p)) i k q := by
        obtain ⟨l₁, l₂, hl, he, hlt⟩ := hq3
        exact ⟨l₁, l₂, (hch i hi3).trans hl, he, fun a ha => by rw [put_key]; exact hlt a ha⟩
      have hc4 : c = 0 ∨ c ∈ (s3.put c (.next p)).chain i ∧ k < (s3.put c (.next p)).key c := by
        rw [put_key, hch i hi3]
        exact hc3
      have hnext4 : (s3.put c (.next p)).ld (.next p) = c := put_ld_self (missing_next h3.has)
      have hld4 : tol ∨ (s3.put c (.next p)).ld q = c := by
        rw [put_ld_of_ne hqp]
        exact hld3
      have hi4 : i < (s3.put c (.next p)).set.buckets.len := by rw [put_len]; exact hi3
      generalize s3.put c (.next p) = s4 at *
      refine wp_bind.mpr fun s5 hr5 => ?_
      have hst5 := hL.rely s4 s5 h4.inv hr5
      have h5 := h4.steady hst5
      have hi5 : i < s5.set.buckets.len := by rw [hst5.grows.len]; exact hi4
      have hq5 := hq4.grows hi4 hst5.grows h5.inv.table
      have hnext5 : s5.ld (.next p) = c := by
        show (s5.heap.get p).next = c
        unfold Heap.get
        rw [(hst5.mine h4.fresh).2]
        exact hnext4
      by_cases hld : s5.ld q = c
      · have hc5 : s5.ld q = 0 ∨ k < s5.key (s5.ld q) := by
          rw [hld]
          refine hc4.imp_right fun hm => ?_
          rw [hst5.grows.key ⟨i, hi4, hm.1⟩]
          exact hm.2
        obtain ⟨hlink, hmem⟩ := h5.link hi5 hq5 hc5 (hnext5.trans hld.symm)
        refine hL.step (o := .cas q c p) h5.inv (r := true) ?_ hlink ?_
        · simp only [Store.exec, hq5.missing h5.inv.table hi5, if_pos hld]
          rfl
        have hlive : (s5.linkedBy t p q).Live p := ⟨i, by rw [hlink.grows.len]; exact hi5, hmem⟩
        have hkeyp : (s5.linkedBy t p q).key p = k := hlink.scratch.key.trans h5.key
        have howed : (s5.linkedBy t p q).set.owed.count t = 1 := by
          show List.count t (t :: (s5.put p q).set.owed) = 1
          rw [put_owed, List.count_cons_self, h5.owed]
        generalize s5.linkedBy t p q = s6 at *
        refine wp_bind.mpr fun s7 hr7 => ?_
        have hst7 := hL.rely s6 s7 hlink.inv hr7
        have howed7 : s7.set.owed.count t = 1 := hst7.owed.trans howed
        have hadd := inserted_addEntry (p := p) hst7.inv howed7
        refine hL.step (o := .addEntry) hst7.inv (r := ()) rfl hadd ⟨hadd.inv, ?_, ?_, ?_, rfl⟩
        · show (s7.set.owed.erase t).count t = 0
          rw [List.count_erase_self, howed7]
        · exact hadd.grows.live (hst7.grows.live hlive)
        · exact (hst7.grows.key hlive).trans hkeyp
      · -- somebody linked a node here; alone that cannot happen
        refine hL.step (o := .cas q c p) h5.inv (r := false) ?_ (.refl h5.inv) ?_
        · simp only [Store.exec, hq5.missing h5.inv.table hi5, if_neg hld]
        refine ih s5 h5 (Or.inl ?_)
        have hld5 := hL.still (P := fun s => s.ld q = c) hr5 hld4
        exact hld5.resolve_right hld

/-- **`get_or_insert`.** -/
theorem wp_getOrInsert {i : Nat} {k : Key} (n : Nat) (s : Store) (h : Ready t p i k s)
    (hn : tol ∨ Short s i n) :
    wp L (LockFreeSet.getOrInsert p n) (InsertOk t p k) s := by
  unfold LockFreeSet.getOrInsert
  refine wp_bind.mpr (hL.wp_look (o := .hash p) (f := Node.hash) (fun _ => rfl) h.inv
    fun s1 hr1 hst1 => ?_)
  have h1 := h.steady hst1
  have hn1 := hL.still (P := fun s => Short s i n) hr1 hn
  refine ⟨h1.has, wp_bind.mpr fun s2 hr2 => ?_⟩
  have hst2 := hL.rely s1 s2 h1.inv hr2
  have h2 := h1.steady hst2
  have hn2 := hL.still (P := fun s => Short s i n) hr2 hn1
  refine hL.step (o := .sizeExp) h2.inv (r := s2.set.sizeExp) rfl (.refl h2.inv) ?_
  have hidx : maskIdx (s1.heap.get p).hash s2.set.sizeExp = i := by
    rw [hst2.grows.sizeExp]
    exact h1.idx
  show wp L (do
    let newKey : Key ← acc (.key p)
    LockFreeSet.retry p newKey (.head (maskIdx (s1.heap.get p).hash s2.set.sizeExp)) n) _ s2
  rw [hidx]
  refine wp_bind.mpr (hL.wp_look (o := .key p) (f := Node.key) (fun _ => rfl) h2.inv
    fun s3 hr3 hst3 => ?_)
  have h3 := h2.steady hst3
  refine ⟨h3.has, ?_⟩
  have hkey : (s3.heap.get p).key = k := h3.key
  rw [hkey]
  exact wp_retry hL n s3 h3 (hL.still (P := fun s => Short s i n) hr3 hn2)

end

end Tobdd.Store
