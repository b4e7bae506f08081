import Tobdd.Collect
import Tobdd.Grow
import Tobdd.Invariant

/-!
# Cleaning up

What a thread does while it holds the write lock: `collect` of `gc`, and `cleanUp` of
`enter_op`, which collects or grows.  Both leave the table in order (`Cleaned`): a part of
the old nodes that is closed under children and contains every node that is referenced,
the others freed, and all memo tables empty.
-/

namespace Tobdd

open Resume

/-- The table `s` is what cleaning up has left of `b`. -/
structure Store.Tidied (b s : Store) : Prop where
  inv : s.Inv
  owed : s.set.owed = []
  len : s.set.buckets.len = rangeI32 s.set.sizeExp
  sub : ∀ a, s.Live a → b.Live a
  closed : ∀ a c, s.Live a → b.heap.Child a c → s.Live c
  node : ∀ a, s.Live a → (b.heap.get a).Alike (s.heap.get a)
  has : ∀ a, s.heap.Has a ↔ b.heap.Has a ∧ (b.Live a → s.Live a)

namespace Store

variable {g : Consts} {b s s' : Store} {M : Finset Bdd}

theorem Collected.tidied (hb : TableOk g b) (hM : Survivors b M) (h : Collected b M s) :
    Tidied b s := by
  have hlive := h.live hM.live
  refine ⟨h.inv, h.owed, by rw [h.len, h.sizeExp, hb.len], fun a ha => hM.live a ((hlive a).mp ha),
    fun a c ha hc => (hlive c).mpr (hM.closed a ((hlive a).mp ha) c hc),
    fun a ha => h.node a ((hlive a).mp ha), fun a => ?_⟩
  rw [h.has, hlive]

theorem Grown.tidied (hb : TableOk g b) (h : Restored b s) (h' : Grown s s') : Tidied b s' := by
  obtain ⟨-, hch⟩ := h.inv hb.inv
  have hlive : ∀ a, s'.Live a ↔ b.Live a := fun a =>
    (h'.live a).trans (live_congr h.buckets hch a)
  refine ⟨h'.inv, h'.owed, by rw [h'.len, h'.sizeExp], fun a => (hlive a).mp, fun a c ha hc => ?_,
    fun a ha => ?_, fun a => ?_⟩
  · exact (hlive c).mpr (hb.nodes.child ((hlive a).mp ha) hc.2.1.ne_zero hc.2.2).1
  · exact (h.node a (hb.nodes.has a ((hlive a).mp ha))).alike.trans (h'.node a)
  · rw [h'.has, h.has, hlive]
    exact ⟨fun ha => ⟨ha, fun hl => hl⟩, fun ha => ha.1⟩

end Store

namespace World

/-- Others drop references, and that is all they do. -/
structure Drops (m : Nat) (w w' : World) : Prop where
  mgr : w'.mgr = w.mgr
  made : w'.made = w.made
  store : (w.store m).Drops (w'.store m)

theorem Drops.refl (m : Nat) (w : World) : Drops m w w := ⟨rfl, rfl, .refl _⟩

theorem Drops.trans {m : Nat} {w₁ w₂ w₃ : World} (h1 : Drops m w₁ w₂) (h2 : Drops m w₂ w₃) :
    Drops m w₁ w₃ := ⟨h2.mgr.trans h1.mgr, h2.made.trans h1.made, h1.store.trans h2.store⟩

/-- The invariant does not mind. -/
theorem Drops.worldInv {m : Nat} {w w' : World} (h : Drops m w w') (hi : w.Inv) : w'.Inv := by
  have hother := fun k hk => hi.other hk (congrFun h.mgr k) fun a ha =>
    ⟨(h.store.has a).mpr ((hi.table k hk).nodes.has a ha), h.store.node a⟩
  have hmade : ∀ k, w'.made k = true ↔ w.made k = true := fun k => by rw [h.made]
  have hfree : w'.freeId = w.freeId := h.store.freeId
  have hzero : ∀ a, (w.heap.get a).refCnt = 0 → (w'.heap.get a).refCnt = 0 := h.store.zero
  have hhas : ∀ a, w'.heap.Has a ↔ w.heap.Has a := h.store.has
  constructor
  · intro k hk
    exact (hother k ((hmade k).mp hk)).1
  · intro k hk
    exact (hother k ((hmade k).mp hk)).2.1
  · intro k k' a hk hk' hne ha hb
    rw [hmade] at hk hk'
    exact hi.disjoint k k' a hk hk' hne (((hother k hk).2.2 a).mp ha) (((hother k' hk').2.2 a).mp hb)
  · intro t ht
    rw [hfree] at ht ⊢
    obtain ⟨h1, h2, h3⟩ := hi.scratch t ht
    refine ⟨(hhas _).mpr h1, hzero _ h2, fun k hk hl => ?_⟩
    rw [hmade] at hk
    exact h3 k hk (((hother k hk).2.2 _).mp hl)
  · rw [hfree]
    exact hi.distinct
  · intro a ha
    obtain ⟨k, hk, hl⟩ := hi.counted a fun h0 => ha (hzero a h0)
    exact ⟨k, (hmade k).mpr hk, ((hother k hk).2.2 a).mpr hl⟩

/-- The holder of the write lock of manager `m`, whose table has the nodes `V`, works. -/
structure Cleans (V : Bdd → Prop) (m : Nat) (w w' : World) : Prop where
  made : w'.made = w.made
  consts : w'.consts m = w.consts m
  others : ∀ k, k ≠ m → w'.mgr k = w.mgr k
  tidies : (w.store m).Tidies V (w'.store m)

variable {V : Bdd → Prop} {m t : Nat}

theorem Cleans.refl (w : World) : Cleans V m w w := ⟨rfl, rfl, fun _ _ => rfl, .refl _⟩

theorem Cleans.trans {w₁ w₂ w₃ : World} (h1 : Cleans V m w₁ w₂) (h2 : Cleans V m w₂ w₃) :
    Cleans V m w₁ w₃ :=
  ⟨h2.made.trans h1.made, h2.consts.trans h1.consts,
    fun k hk => (h2.others k hk).trans (h1.others k hk), h1.tidies.trans h2.tidies⟩

/-- The memory of manager `m` apart from its table. -/
structure Beside (m : Nat) (w w' : World) : Prop where
  made : w'.made = w.made
  others : ∀ k, k ≠ m → w'.mgr k = w.mgr k
  mgr : w'.mgr m = { w.mgr m with set := (w'.mgr m).set }

theorem Beside.refl (w : World) : Beside m w w := ⟨rfl, fun _ _ => rfl, rfl⟩

theorem Beside.drops {w w₁ w₂ : World} (h : Beside m w w₁) (hd : Drops m w₁ w₂) : Beside m w w₂ :=
  ⟨hd.made.trans h.made, fun k hk => (congrFun hd.mgr k).trans (h.others k hk),
    by rw [hd.mgr]; exact h.mgr⟩

theorem Beside.put {w w' : World} (h : Beside m w w') (s : Store) : Beside m w (w'.put m s) := by
  refine ⟨h.made, fun k hk => (put_mgr_of_ne w' m s hk).trans (h.others k hk), ?_⟩
  rw [put_mgr, h.mgr]

theorem Beside.trans {w₁ w₂ w₃ : World} (h1 : Beside m w₁ w₂) (h2 : Beside m w₂ w₃) :
    Beside m w₁ w₃ := by
  refine ⟨h2.made.trans h1.made, fun k hk => (h2.others k hk).trans (h1.others k hk), ?_⟩
  rw [h2.mgr, h1.mgr]

/-- What neither the cleaning nor the others touch: where no reference was there is none,
and the nodes outside the table stay. -/
structure Aside (V : Bdd → Prop) (w w' : World) : Prop where
  zero : ∀ a, (w.heap.get a).refCnt = 0 → (w'.heap.get a).refCnt = 0
  has : ∀ a, ¬ V a → (w'.heap.Has a ↔ w.heap.Has a)
  node : ∀ a, ¬ V a → (w.heap.get a).Recounted (w'.heap.get a)
  freeId : w'.freeId = w.freeId

theorem Aside.refl (w : World) : Aside V w w :=
  ⟨fun _ h => h, fun _ _ => Iff.rfl, fun _ _ => .refl _, rfl⟩

theorem Aside.drops {w w₁ w₂ : World} (h : Aside V w w₁) (hd : Drops m w₁ w₂) : Aside V w w₂ :=
  ⟨fun a ha => hd.store.zero a (h.zero a ha), fun a ha => (hd.store.has a).trans (h.has a ha),
    fun a ha => (h.node a ha).trans (hd.store.node a), hd.store.freeId.trans h.freeId⟩

theorem Aside.cleans {w w₁ w₂ : World} (h : Aside V w w₁) (hc : Cleans V m w₁ w₂) :
    Aside V w w₂ := by
  refine ⟨fun a ha => ?_, fun a ha => ?_, fun a ha => ?_, hc.tidies.freeId.trans h.freeId⟩
  · by_cases hs : w₂.heap.Has a
    · exact ((hc.tidies.same a hs).2).trans (h.zero a ha)
    · rw [Heap.get_of_not_has hs]
      rfl
  · have hcell : w₂.heap.cell a = w₁.heap.cell a := hc.tidies.other a ha
    rw [← h.has a ha]
    unfold Heap.Has
    rw [hcell]
  · have hcell : w₂.heap.cell a = w₁.heap.cell a := hc.tidies.other a ha
    have hn := h.node a ha
    unfold Heap.get at hn ⊢
    rwa [hcell]

/-- What cleaning up manager `m` has done; `d` is 1 where the arrays grew. -/
structure Cleaned (d m : Nat) (w w' : World) : Prop where
  made : w'.made = w.made
  others : ∀ k, k ≠ m → w'.mgr k = w.mgr k
  consts : w'.consts m = w.consts m
  lock : (w'.mgr m).rwLock = (w.mgr m).rwLock
  tidied : (w.store m).Tidied (w'.store m)
  exp : (w'.mgr m).set.sizeExp = (w.mgr m).set.sizeExp + d
  notEmpty : (w'.mgr m).notCache.Empty
  notLen : (w'.mgr m).notCache.entries.len = rangeI32 (w'.mgr m).notCache.sizeExp
  notExp : (w'.mgr m).notCache.sizeExp = (w.mgr m).notCache.sizeExp + d
  empty : ∀ c, ((w'.mgr m).cache c).Empty
  cacheLen : ∀ c, ((w'.mgr m).cache c).entries.len = rangeI32 ((w'.mgr m).cache c).sizeExp
  cacheExp : ∀ c, ((w'.mgr m).cache c).sizeExp = ((w.mgr m).cache c).sizeExp + d
  aside : Aside (w.store m).Live w w'

/-- **Cleaning up keeps the invariant**, when the constants are still in use. -/
theorem Cleaned.inv {d : Nat} {w w' : World} (h : Cleaned d m w w') (hi : w.Inv)
    (hm : w.made m = true) (htop : (w'.store m).Live (w.consts m).trueId)
    (hbot : (w'.store m).Live (w.consts m).falseId) : w'.Inv := by
  have ht := hi.table m hm
  have htable : TableOk (w'.consts m) (w'.store m) := by
    rw [h.consts]
    exact ⟨h.tidied.inv, h.tidied.owed, h.tidied.len, ht.nodes.restrict h.tidied.sub htop hbot
      h.tidied.closed fun a ha => ⟨h.tidied.inv.table.has ha, h.tidied.node a ha⟩⟩
  have hother : ∀ k, k ≠ m → w.made k = true →
      TableOk (w'.consts k) (w'.store k) ∧ CachesOk (w'.mgr k) (w'.store k) ∧
      ∀ a, (w'.store k).Live a ↔ (w.store k).Live a := fun k hk hmk =>
    hi.other hmk (h.others k hk) fun a ha => by
      have hn : ¬ (w.store m).Live a := hi.disjoint k m a hmk hm hk ha
      exact ⟨(h.aside.has a hn).mpr ((hi.table k hmk).nodes.has a ha), h.aside.node a hn⟩
  have hlive : ∀ k a, w.made k = true → (w'.store k).Live a → (w.store k).Live a := by
    intro k a hk ha
    by_cases hkm : k = m
    · subst hkm
      exact h.tidied.sub a ha
    · exact ((hother k hkm hk).2.2 a).mp ha
  refine ⟨fun k hk => ?_, fun k hk => ?_, fun k k' a hk hk' hne ha hb => ?_, fun u hu => ?_,
    fun u v hu huv => ?_, fun a ha => ?_⟩
  · rw [h.made] at hk
    by_cases hkm : k = m
    · subst hkm
      exact htable
    · exact (hother k hkm hk).1
  · rw [h.made] at hk
    by_cases hkm : k = m
    · subst hkm
      exact ⟨h.notEmpty.quiet, h.notLen, h.notEmpty.sound _, fun c => (h.empty c).quiet, h.cacheLen,
        fun c => (h.empty c).sound _⟩
    · exact (hother k hkm hk).2.1
  · rw [h.made] at hk hk'
    exact hi.disjoint k k' a hk hk' hne (hlive k a hk ha) (hlive k' a hk' hb)
  · rw [h.aside.freeId] at hu ⊢
    obtain ⟨h1, h2, h3⟩ := hi.scratch u hu
    refine ⟨(h.aside.has _ (h3 m hm)).mpr h1, h.aside.zero _ h2, fun k hk hl => ?_⟩
    rw [h.made] at hk
    exact h3 k hk (hlive k _ hk hl)
  · rw [h.aside.freeId] at hu huv
    exact hi.distinct u v hu huv
  · obtain ⟨k, hk, hl⟩ := hi.counted a fun h0 => ha (h.aside.zero a h0)
    refine ⟨k, by rw [h.made]; exact hk, ?_⟩
    by_cases hkm : k = m
    · subst hkm
      refine ((h.tidied.has a).mp ?_).2 hl
      by_contra hn
      rw [show w'.heap.get a = default from Heap.get_of_not_has hn] at ha
      exact ha rfl
    · exact ((hother k hkm hk).2.2 a).mpr hl

end World

namespace Manager

open World

/-- Thread `t` holds the write lock of manager `m`.  It may run out of rounds only if `tol`,
and panic only if `bad`. -/
def cleaning (V : Bdd → Prop) (m t : Nat) (tol bad : Prop) : Logic ops World where
  exec := exec m t
  rely := Drops m
  guar := Cleans V m
  safe _ _ := True
  stops e _ := e = .spin ∧ tol ∨ e = .panic ∧ bad
  fits _ := True

variable {V : Bdd → Prop} {m t : Nat} {tol bad : Prop} {α : Type} {w : World}

/-- The code of the table, as code of the manager. -/
theorem wp_cleaner {p : Prog mem α} {Q : α → Store → Prop}
    (h : wp (Store.collecting V t tol bad) p Q (w.store m)) :
    wp (cleaning V m t tol bad) (p.lift cleaner)
      (fun a w' => Q a (w'.store m) ∧ Beside m w w') w := by
  refine wp_lift (wp_view (M := (cleaning V m t tol bad).pull cleaner) (fun w => w.store m)
    (Beside m w) (fun w₁ w₂ hI hr => ⟨hr.store, hI.drops hr⟩) (fun o w₁ P hI hd => ?_) (.refl w) h)
  refine ⟨trivial, ?_⟩
  have hd2 := hd.2
  simp only [Logic.pull, cleaning, exec, cleaner]
  cases he : Store.exec t o (w₁.store m) with
  | error e =>
    have he' : (Store.collecting V t tol bad).exec o (w₁.store m) = .error e := he
    rw [he'] at hd2
    exact hd2
  | ok x =>
    have he' : (Store.collecting V t tol bad).exec o (w₁.store m) = .ok (x.1, x.2) := he
    rw [he'] at hd2
    obtain ⟨hg, hp⟩ := hd2 trivial
    refine fun _ => ⟨⟨rfl, put_consts w₁ m x.2 m, fun k hk => put_mgr_of_ne w₁ m x.2 hk, ?_⟩, ?_,
      hI.put x.2⟩
    · rw [put_store]
      exact hg
    · rw [put_store]
      exact hp

/-! ## The memo tables -/

/-- Since `w`, the record of manager `m` has become `g`; otherwise references were dropped. -/
structure Recached (m : Nat) (w : World) (g : Manager) (w' : World) : Prop where
  made : w'.made = w.made
  others : ∀ k, k ≠ m → w'.mgr k = w.mgr k
  mgr : w'.mgr m = g
  store : (w.store m).Drops (w'.store m)

theorem Recached.refl (w : World) : Recached m w (w.mgr m) w := ⟨rfl, fun _ _ => rfl, rfl, .refl _⟩

theorem Recached.drops {g : Manager} {w₁ w₂ : World} (h : Recached m w g w₁) (hd : Drops m w₁ w₂) :
    Recached m w g w₂ :=
  ⟨hd.made.trans h.made, fun k hk => (congrFun hd.mgr k).trans (h.others k hk),
    (congrFun hd.mgr m).trans h.mgr, h.store.trans hd.store⟩

/-- A step that changes the memo tables of the manager. -/
theorem wp_recache {o : Op} {k : ops.Res o → Prog ops α} {Q : α → World → Prop} {g : Manager}
    {w w₁ : World} (hw : Recached m w g w₁) (r : ops.Res o) (f : Manager → Manager)
    (hex : ∀ w, exec m t o w = .ok (r, w.setMgr m (f (w.mgr m)))) (hset : (f g).set = g.set)
    (hcon : (f g).toConsts = g.toConsts)
    (h : ∀ w₂, Recached m w (f g) w₂ → wp (cleaning V m t tol bad) (k r) Q w₂) :
    wp (cleaning V m t tol bad) (step o >>= k) Q w₁ := by
  intro w₂ hd
  have hw2 := hw.drops hd
  have hst : (w₂.setMgr m (f (w₂.mgr m))).store m = w₂.store m :=
    setMgr_store (by rw [hw2.mgr, hset]) m
  refine Logic.Does.of_ok trivial (hex w₂) fun _ => ⟨⟨rfl, setMgr_consts ?_ m,
    fun k hk => setMgr_mgr_of_ne w₂ m _ hk, ?_⟩, h _ ⟨hw2.made, fun k hk => ?_, ?_, ?_⟩⟩
  · show (f (w₂.mgr m)).toConsts = (w₂.mgr m).toConsts
    rw [hw2.mgr, hcon]
  · rw [hst]
    exact .refl _
  · rw [setMgr_mgr_of_ne w₂ m _ hk]
    exact hw2.others k hk
  · rw [setMgr_mgr, hw2.mgr]
  · rw [hst]
    exact hw2.store

/-- All memo tables of `g`, changed by `F` and `G`. -/
def recache (g : Manager) (F : LockFreeCache Bdd Bdd → LockFreeCache Bdd Bdd)
    (G : LockFreeCache (Bdd × Bdd) Bdd → LockFreeCache (Bdd × Bdd) Bdd) : Manager :=
  { g with notCache := F g.notCache, cache := fun c => G (g.cache c) }

theorem wp_invalidateCaches (w : World) :
    wp (cleaning V m t tol bad) invalidateCaches (fun _ w' =>
      Recached m w (recache (w.mgr m) LockFreeCache.invalidateAll LockFreeCache.invalidateAll) w') w := by
  have hinv : ∀ (c : Memo) (g : Manager) {w₁ : World}, Recached m w g w₁ → ∀ {k : Unit → Prog ops Unit}
      {Q : Unit → World → Prop}, (∀ w₂, Recached m w { g with
        cache := Function.update g.cache c (g.cache c).invalidateAll } w₂ →
          wp (cleaning V m t tol bad) (k ()) Q w₂) →
      wp (cleaning V m t tol bad) (step (.invalidate c) >>= k) Q w₁ := fun c g w₁ hw k Q h =>
    wp_recache (o := .invalidate c) hw () (fun g => { g with
      cache := Function.update g.cache c (g.cache c).invalidateAll }) (fun _ => rfl) rfl rfl h
  unfold invalidateCaches
  refine hinv .and _ (.refl w) fun w₁ h1 => hinv .or _ h1 fun w₂ h2 => hinv .comp _ h2 fun w₃ h3 => ?_
  refine wp_recache (o := .notInvalidate) h3 () (fun g => { g with
    notCache := g.notCache.invalidateAll }) (fun _ => rfl) rfl rfl fun w₄ h4 => ?_
  refine hinv .quantExist _ h4 fun w₅ h5 => hinv .quantForall _ h5 fun w₆ h6 => ?_
  refine ⟨h6.made, h6.others, h6.mgr.trans ?_, h6.store⟩
  unfold recache
  simp only [Manager.mk.injEq, true_and]
  funext c
  cases c <;> rfl

theorem wp_growCaches (w : World) :
    wp (cleaning V m t tol bad) growCaches (fun _ w' =>
      Recached m w (recache (w.mgr m) LockFreeCache.grow LockFreeCache.grow) w') w := by
  have hgrow : ∀ (c : Memo) (g : Manager) {w₁ : World}, Recached m w g w₁ → ∀ {k : Unit → Prog ops Unit}
      {Q : Unit → World → Prop}, (∀ w₂, Recached m w { g with
        cache := Function.update g.cache c (g.cache c).grow } w₂ →
          wp (cleaning V m t tol bad) (k ()) Q w₂) →
      wp (cleaning V m t tol bad) (step (.grow c) >>= k) Q w₁ := fun c g w₁ hw k Q h =>
    wp_recache (o := .grow c) hw () (fun g => { g with
      cache := Function.update g.cache c (g.cache c).grow }) (fun _ => rfl) rfl rfl h
  unfold growCaches
  refine hgrow .and _ (.refl w) fun w₁ h1 => hgrow .or _ h1 fun w₂ h2 => hgrow .comp _ h2 fun w₃ h3 => ?_
  refine wp_recache (o := .notGrow) h3 () (fun g => { g with notCache := g.notCache.grow })
    (fun _ => rfl) rfl rfl fun w₄ h4 => ?_
  refine hgrow .quantExist _ h4 fun w₅ h5 => hgrow .quantForall _ h5 fun w₆ h6 => ?_
  refine ⟨h6.made, h6.others, h6.mgr.trans ?_, h6.store⟩
  unfold recache
  simp only [Manager.mk.injEq, true_and]
  funext c
  cases c <;> rfl

/-- What is known aside is known in the end, too. -/
theorem wp_aside {p : Prog ops α} {Q : α → World → Prop}
    (h : wp (cleaning V m t tol bad) p Q w) :
    wp (cleaning V m t tol bad) p (fun a w' => Q a w' ∧ Aside V w w') w := by
  refine wp_view (L := cleaning V m t tol bad) (M := cleaning V m t tol bad) id (Aside V w)
    (fun w₁ w₂ hI hr => ⟨hr, hI.drops hr⟩) (fun o w₁ P hI hd => ⟨hd.1, ?_⟩) (.refl w) h
  have hd2 := hd.2
  split at hd2
  · next r w₂ he =>
    rw [show (cleaning V m t tol bad).exec o w₁ = _ from he]
    exact fun hf => ⟨(hd2 hf).1, (hd2 hf).2, hI.cleans (hd2 hf).1⟩
  · next e he =>
    rw [show (cleaning V m t tol bad).exec o w₁ = _ from he]
    exact hd2

/-! ## collect and cleanUp -/

/-- How many rounds are enough. -/
structure Enough (w : World) (m n : Nat) : Prop where
  chain : 2 * w.heap.brk < n
  level : (w.consts m).numVars + 1 < n

theorem Enough.fuel {n : Nat} (h : Enough w m n) :
    (w.store m).Fuel ((w.consts m).rank w.heap) n := by
  refine ⟨?_, fun a _ => ?_⟩
  · have := h.chain
    show w.heap.brk < n
    omega
  · have := h.level
    unfold Consts.rank
    split <;> omega

/-- The end of a cleaning, once the table is done. -/
theorem cleaned_of {d : Nat} {w₁ w₂ w₃ : World} (hc : CachesOk (w₁.mgr m) (w₁.store m))
    {F : LockFreeCache Bdd Bdd → LockFreeCache Bdd Bdd}
    {G : LockFreeCache (Bdd × Bdd) Bdd → LockFreeCache (Bdd × Bdd) Bdd}
    (hF : ∀ c, c.Quiet → c.entries.len = rangeI32 c.sizeExp →
      (F c).Empty ∧ (F c).entries.len = rangeI32 (F c).sizeExp ∧ (F c).sizeExp = c.sizeExp + d)
    (hG : ∀ c, c.Quiet → c.entries.len = rangeI32 c.sizeExp →
      (G c).Empty ∧ (G c).entries.len = rangeI32 (G c).sizeExp ∧ (G c).sizeExp = c.sizeExp + d)
    (hb : Beside m w₁ w₂) (ht : (w₁.store m).Tidied (w₂.store m))
    (hexp : (w₂.mgr m).set.sizeExp = (w₁.mgr m).set.sizeExp + d)
    (hr : Recached m w₂ (recache (w₂.mgr m) F G) w₃) (ha : Aside (w₁.store m).Live w₁ w₃) :
    Cleaned d m w₁ w₃ := by
  have hset : (w₃.mgr m).set = (w₂.mgr m).set := by
    rw [hr.mgr]
    rfl
  have hn := hF _ hc.notQuiet hc.notLen
  have hcc := fun c => hG _ (hc.quiet c) (hc.len c)
  have hnot : (w₃.mgr m).notCache = F (w₁.mgr m).notCache := by
    rw [hr.mgr, hb.mgr]
    rfl
  have hcache : ∀ c, (w₃.mgr m).cache c = G ((w₁.mgr m).cache c) := fun c => by
    rw [hr.mgr, hb.mgr]
    rfl
  -- the table is the same, but for dropped references
  have htid : (w₁.store m).Tidied (w₃.store m) := by
    obtain ⟨hinv, hlive⟩ := hr.store.inv ht.inv
    refine ⟨hinv, by rw [hr.store.set, ht.owed], by rw [hr.store.set, ht.len],
      fun a ha => ht.sub a ((hlive a).mp ha),
      fun a c ha hac => (hlive c).mpr (ht.closed a c ((hlive a).mp ha) hac),
      fun a ha => (ht.node a ((hlive a).mp ha)).trans (hr.store.node a).alike, fun a => ?_⟩
    rw [hr.store.has, ht.has, hlive]
  exact
    { made := hr.made.trans hb.made
      others := fun k hk => (hr.others k hk).trans (hb.others k hk)
      consts := by
        show (w₃.mgr m).toConsts = (w₁.mgr m).toConsts
        rw [hr.mgr, hb.mgr]
        rfl
      lock := by
        rw [hr.mgr, hb.mgr]
        rfl
      tidied := htid
      exp := by rw [hset, hexp]
      notEmpty := by rw [hnot]; exact hn.1
      notLen := by rw [hnot]; exact hn.2.1
      notExp := by rw [hnot]; exact hn.2.2
      empty := fun c => by rw [hcache]; exact (hcc c).1
      cacheLen := fun c => by rw [hcache]; exact (hcc c).2.1
      cacheExp := fun c => by rw [hcache]; exact (hcc c).2.2
      aside := ha }

theorem invalidateAll_spec {K V : Type} [Inhabited K] [Inhabited V] (c : LockFreeCache K V)
    (hq : c.Quiet) (hl : c.entries.len = rangeI32 c.sizeExp) : c.invalidateAll.Empty ∧
      c.invalidateAll.entries.len = rangeI32 c.invalidateAll.sizeExp ∧
      c.invalidateAll.sizeExp = c.sizeExp + 0 :=
  ⟨LockFreeCache.invalidateAll_empty hq, hl, rfl⟩

theorem grow_spec {K V : Type} [Inhabited K] [Inhabited V] (c : LockFreeCache K V) :
    c.grow.Empty ∧ c.grow.entries.len = rangeI32 c.grow.sizeExp ∧ c.grow.sizeExp = c.sizeExp + 1 :=
  ⟨c.grow_empty, rfl, rfl⟩

/-- The end of a collection. -/
theorem cleaned_of_collected (hi : w.Inv) (hm : w.made m = true) {M : Finset Bdd} {w₂ w₃ : World}
    (hM : (w.store m).Survivors M) (hc : (w.store m).Collected M (w₂.store m)) (hb : Beside m w w₂)
    (hr : Recached m w₂ (recache (w₂.mgr m) LockFreeCache.invalidateAll LockFreeCache.invalidateAll) w₃)
    (ha : Aside (w.store m).Live w w₃) : Cleaned 0 m w w₃ :=
  cleaned_of (hi.caches m hm) invalidateAll_spec invalidateAll_spec hb
    (hc.tidied (hi.table m hm) hM) hc.sizeExp hr ha

section
variable {n : Nat} (hi : w.Inv) (hm : w.made m = true)
  (hbad : ¬ (w.store m).Sized → bad)
  (hn : tol ∨ Enough w m n)
include hi hm hbad hn

/-- `mark_nodes`, in the manager. -/
theorem wp_mark : wp (cleaning (w.store m).Live m t tol bad)
    ((LockFreeSet.markNodes n).lift cleaner) (fun c w' => (∃ M, c = M.card ∧
      (w.store m).MarkedNodes M (w'.store m) ∧ (w.store m).Sized) ∧ Beside m w w') w := by
  have ht := hi.table m hm
  exact wp_cleaner (Store.wp_markNodes ht.inv.table.chains ht.markable ht.len_le hbad
    (hn.imp_right Enough.fuel))

/-- What follows `mark_nodes` in a collection. -/
theorem wp_sweepAll {k : Prog ops α} {Q : α → World → Prop} {w₁ : World} {M : Finset Bdd}
    (hM : (w.store m).MarkedNodes M (w₁.store m)) (hb : Beside m w w₁)
    (hk : ∀ w₂, (w.store m).Collected M (w₂.store m) → Beside m w w₂ →
      wp (cleaning (w.store m).Live m t tol bad) k Q w₂) :
    wp (cleaning (w.store m).Live m t tol bad) (do
      (LockFreeSet.gcUnmarked n).lift cleaner
      (LockFreeSet.unmarkNodes n).lift cleaner
      k) Q w₁ := by
  have ht := hi.table m hm
  have hsw := wp_cleaner (w := w₁) (Store.wp_sweepNodes (t := t) ht.inv.table ht.owed
    ht.markable hM ht.len_le hbad (n := n) (hn.imp_right fun h => h.fuel.chain))
  rw [lift_bind] at hsw
  refine wp_seq (wp_bind.mp hsw) fun _ w₂ hw2 => wp_seq hw2 ?_
  rintro _ w₃ ⟨hc, hb3⟩
  exact hk w₃ hc (hb.trans hb3)

/-- **`collect`**, which answers with the number of nodes that are left. -/
theorem wp_collect : wp (cleaning (w.store m).Live m t tol bad) (collect n) (fun c w' =>
    Cleaned 0 m w w' ∧ ∃ M : Finset Bdd, c = M.card ∧ (w.store m).Survivors M ∧
      ∀ a, (w'.store m).Live a ↔ a ∈ M) w := by
  have hmain : wp (cleaning (w.store m).Live m t tol bad) (collect n) (fun c w' =>
      ∃ M : Finset Bdd, c = M.card ∧ (w.store m).Survivors M ∧ ∃ w₂,
        (w.store m).Collected M (w₂.store m) ∧ Beside m w w₂ ∧ Recached m w₂
          (recache (w₂.mgr m) LockFreeCache.invalidateAll LockFreeCache.invalidateAll) w') w := by
    unfold collect
    refine wp_seq (wp_mark hi hm hbad hn) ?_
    rintro c w₁ ⟨⟨M, hc, hM, -⟩, hb⟩
    exact wp_sweepAll hi hm hbad hn hM hb fun w₂ h2 hb2 =>
      wp_seq (wp_invalidateCaches w₂) fun _ w₃ h3 => ⟨M, hc, hM.survivors, w₂, h2, hb2, h3⟩
  refine wp_mono ?_ (wp_aside hmain)
  rintro c w₃ ⟨⟨M, hc, hM, w₂, h2, hb, hr⟩, ha⟩
  have hclean := cleaned_of_collected hi hm hM h2 hb hr ha
  refine ⟨hclean, M, hc, hM, fun a => ?_⟩
  rw [← h2.live hM.live a]
  exact (hr.store.inv h2.inv).2 a

/-- What `cleanUp` does, when `M` are the nodes it marks: it grows where too few others are
left, and collects them where they are enough. -/
def CleanedUp (m entryNum bucketSize : Nat) (w w' : World) : Prop :=
  ∃ M : Finset Bdd, (w.store m).Survivors M ∧
    (wrapSub entryNum M.card < bucketSize / 4 ∧ Cleaned 1 m w w' ∧
        (∀ a, (w'.store m).Live a ↔ (w.store m).Live a) ∨
      bucketSize / 4 ≤ wrapSub entryNum M.card ∧ Cleaned 0 m w w' ∧
        ∀ a, (w'.store m).Live a ↔ a ∈ M)

/-- **`cleanUp`.** -/
theorem wp_cleanUp (entryNum bucketSize : Nat)
    (hroom : ∀ M, (w.store m).Survivors M → wrapSub entryNum M.card < bucketSize / 4 →
      rangeI32 ((w.mgr m).set.sizeExp + 1) ≠ shl64 ((w.mgr m).set.sizeExp + 1) → bad) :
    wp (cleaning (w.store m).Live m t tol bad) (cleanUp entryNum bucketSize n)
      (fun _ w' => CleanedUp m entryNum bucketSize w w') w := by
  have ht := hi.table m hm
  have hmain : wp (cleaning (w.store m).Live m t tol bad) (cleanUp entryNum bucketSize n)
      (fun _ w' => Aside (w.store m).Live w w' → CleanedUp m entryNum bucketSize w w') w := by
    unfold cleanUp
    refine wp_seq (wp_mark hi hm hbad hn) ?_
    rintro c w₁ ⟨⟨M, rfl, hM, hsz⟩, hb⟩
    refine wp_ite _ (fun hfew => ?_) fun hfew => ?_
    · refine wp_seq (wp_cleaner (w := w₁) (Store.wp_restore ht.inv.table ht.markable hM ht.len_le
        hbad (hn.imp_right fun h => h.fuel.chain))) ?_
      rintro _ w₂ ⟨h2, hb2⟩
      obtain ⟨hinv, hch⟩ := h2.inv ht.inv
      have hlive : (w₂.store m).Live = (w.store m).Live :=
        funext fun a => propext (Store.live_congr h2.buckets hch a)
      have hgrow := wp_cleaner (w := w₂) (m := m) (Store.wp_grow (t := t)
        (n := n) hinv (h2.owed.trans ht.owed) (by rw [h2.buckets, h2.sizeExp]; exact ht.len_le)
        (fun hs => absurd (h2.sized.mpr hsz) hs)
        (by rw [h2.sizeExp]; exact hroom M hM.survivors hfew)
        (by rw [h2.brk]; exact hn.imp_right Enough.chain))
      rw [hlive] at hgrow
      refine wp_seq hgrow ?_
      rintro _ w₃ ⟨h3, hb3⟩
      refine wp_mono (fun _ w₄ h4 ha => ⟨M, hM.survivors, Or.inl ⟨hfew, ?_, fun a => ?_⟩⟩)
        (wp_growCaches w₃)
      · exact cleaned_of (hi.caches m hm) (fun c _ _ => grow_spec c) (fun c _ _ => grow_spec c)
          ((hb.trans hb2).trans hb3) (Store.Grown.tidied ht h2 h3)
          (h3.sizeExp.trans (congrArg (· + 1) h2.sizeExp)) h4 ha
      · rw [(h4.store.inv h3.inv).2 a, h3.live a, hlive]
    · refine wp_sweepAll hi hm hbad hn hM hb fun w₂ h2 hb2 => wp_mono (fun _ w₃ h3 ha =>
        ⟨M, hM.survivors, Or.inr ⟨Nat.le_of_not_lt hfew, ?_, fun a => ?_⟩⟩) (wp_invalidateCaches w₂)
      · exact cleaned_of_collected hi hm hM.survivors h2 hb2 h3 ha
      · rw [← h2.live hM.survivors.live a]
        exact (h3.store.inv h2.inv).2 a
  exact wp_mono (fun _ w' h => h.1 h.2) (wp_aside hmain)

end

end Manager

end Tobdd
