import Tobdd.Apply
import Tobdd.CleanUp

/-!
# One call after the other

What the calls of a single thread do, from a state in which no guard is held.

`Shrinks`: what a collection or a growth does to the nodes of a manager.  `enter_op` does
that or nothing and leaves a read guard (`Entered`); then the recursion runs, its result is
referenced and the guard dropped (`Answered`).  `gc` is a collection alone.

    run_call: a call that returns has answered the operation of its operands
    run_call_total: it returns, with enough rounds and arrays as long as the masks assume
    run_gc: the same for `gc`
-/

namespace Tobdd

open Resume Diagram

namespace World

/-- No guard of manager `m` is held. -/
def Idle (w : World) (m : Nat) : Prop := (w.mgr m).rwLock = ⟨[], none⟩

/-- What every call does to the nodes: where memory was not freed, a node of a table stays in
it, as it was but for its link and its count of references, and stands for what it stood for. -/
structure Onward (w w' : World) : Prop where
  made : ∀ k, w.made k = true → w'.made k = true
  consts : ∀ k, w.made k = true → w'.consts k = w.consts k
  mono : ∀ a, w.heap.frees a ≤ w'.heap.frees a
  live : ∀ k a, w.made k = true → (w.store k).Live a → w'.heap.frees a = w.heap.frees a →
    (w'.store k).Live a
  node : ∀ k a, w.made k = true → (w.store k).Live a → w'.heap.frees a = w.heap.frees a →
    (w.heap.get a).Alike (w'.heap.get a)
  stands : ∀ k a f, w.made k = true → w.Stands k a f → w'.heap.frees a = w.heap.frees a →
    w'.Stands k a f

variable {m t : Nat} {w w' : World}

theorem Onward.refl (w : World) : Onward w w :=
  ⟨fun _ h => h, fun _ _ => rfl, fun _ => Nat.le_refl _, fun _ _ _ h _ => h, fun _ _ _ _ _ => .refl _,
    fun _ _ _ _ h _ => h⟩

theorem Onward.trans {w₁ w₂ w₃ : World} (h1 : Onward w₁ w₂) (h2 : Onward w₂ w₃) : Onward w₁ w₃ := by
  have hmid : ∀ a, w₃.heap.frees a = w₁.heap.frees a →
      w₂.heap.frees a = w₁.heap.frees a ∧ w₃.heap.frees a = w₂.heap.frees a := by
    intro a ha
    have h3 := h1.mono a
    have h4 := h2.mono a
    omega
  exact
    { made := fun k hk => h2.made k (h1.made k hk)
      consts := fun k hk => (h2.consts k (h1.made k hk)).trans (h1.consts k hk)
      mono := fun a => (h1.mono a).trans (h2.mono a)
      live := fun k a hk ha hf =>
        h2.live k a (h1.made k hk) (h1.live k a hk ha (hmid a hf).1) (hmid a hf).2
      node := fun k a hk ha hf => (h1.node k a hk ha (hmid a hf).1).trans
        (h2.node k a (h1.made k hk) (h1.live k a hk ha (hmid a hf).1) (hmid a hf).2)
      stands := fun k a f hk hs hf =>
        h2.stands k a f (h1.made k hk) (h1.stands k a f hk hs (hmid a hf).1) (hmid a hf).2 }

/-- Where no memory is freed, what a table keeps stands for what it stood for. -/
theorem Onward.of_keeps (hi : w.Inv) (hmade : ∀ k, w.made k = true → w'.made k = true)
    (hcon : ∀ k, w.made k = true → w'.consts k = w.consts k) (hfrees : w'.heap.frees = w.heap.frees)
    (hlive : ∀ k a, w.made k = true → (w.store k).Live a → (w'.store k).Live a ∧ w'.heap.Has a)
    (hnode : ∀ k a, w.made k = true → (w.store k).Live a → (w.heap.get a).Alike (w'.heap.get a)) :
    Onward w w' := by
  refine ⟨hmade, hcon, fun a => by rw [hfrees], fun k a hk ha _ => (hlive k a hk ha).1,
    fun k a hk ha _ => hnode k a hk ha, fun k a f hk hs _ => ?_⟩
  unfold Stands
  rw [hcon k hk]
  exact Consts.Stands.keep (hi.table k hk).nodes ⟨fun b hb => (hlive k b hk hb).1,
    fun b hb => (hlive k b hk hb).2, fun b hb => (hnode k b hk hb).same⟩ hs

theorem Works.onward (h : Works m t w w') (hi : w.Inv) (hm : w.made m = true) : Onward w w' := by
  refine .of_keeps hi (fun k hk => by rw [h.reads.made]; exact hk) (fun k _ => ?_) h.frees
    (fun k a hk ha => ?_) fun k a hk ha => ?_
  · by_cases hkm : k = m
    · subst hkm
      exact h.reads.consts
    · exact congrArg Manager.toConsts (h.others k hkm)
  · by_cases hkm : k = m
    · subst hkm
      exact ⟨h.reads.live a ha, h.reads.has a ha⟩
    · exact ⟨(h.live_other hi hkm hk a).mpr ha, (recounted_of_cell
        ((hi.table k hk).nodes.has a ha) (h.foreign k a hkm hk ha)).1⟩
  · by_cases hkm : k = m
    · subst hkm
      exact h.reads.node a ha
    · exact (recounted_of_cell ((hi.table k hk).nodes.has a ha) (h.foreign k a hkm hk ha)).2.alike

theorem Onward.withLock (w : World) (m : Nat) (l : RwLock) : Onward w (w.withLock m l) := by
  refine ⟨fun _ h => h, fun k _ => withLock_consts .., fun _ => Nat.le_refl _, fun k a _ ha _ => ?_,
    fun _ _ _ _ _ => .refl _, fun k a f _ hs _ => ?_⟩
  · rw [withLock_store]
    exact ha
  · unfold Stands
    rw [withLock_store, withLock_consts]
    exact hs

theorem Onward.recount (hi : w.Inv) (a : Bdd) (f : UInt64 → UInt64) : Onward w (w.recount a f) :=
  .of_keeps hi (fun _ h => h) (fun _ _ => rfl) rfl (fun _ b hk hb =>
    ⟨(recount_live hi hk a f b).mpr hb, (recount_has w a f b).mpr ((hi.table _ hk).nodes.has b hb)⟩)
    fun _ b _ _ => (recount_node w a f b).alike

/-- The nodes of manager `m` become fewer, and nothing else happens to the nodes. -/
structure Shrinks (m : Nat) (w w' : World) : Prop where
  made : w'.made = w.made
  consts : w'.consts m = w.consts m
  others : ∀ k, k ≠ m → w'.mgr k = w.mgr k
  onward : Onward w w'
  sub : ∀ a, (w'.store m).Live a → (w.store m).Live a
  kept : ∀ b a, (w.store m).Live b → (w.heap.get b).refCnt ≠ 0 → w.heap.Reaches b a →
    (w'.store m).Live a
  frees : ∀ k a, w.made k = true → (w'.store k).Live a → w'.heap.frees a = w.heap.frees a
  refs : ∀ a, (w'.heap.get a).refCnt = (w.heap.get a).refCnt
  freeId : w'.freeId = w.freeId
  inv : (w'.store m).Live (w.consts m).trueId → (w'.store m).Live (w.consts m).falseId → w'.Inv

theorem Shrinks.refl (hi : w.Inv) (hm : w.made m = true) : Shrinks m w w where
  made := rfl
  consts := rfl
  others _ _ := rfl
  onward := .refl w
  sub _ h := h
  kept _ _ hb _ hr := hr.mem (hi.table m hm).nodes.child_mem hb
  frees _ _ _ _ := rfl
  refs _ := rfl
  freeId := rfl
  inv _ _ := hi

theorem Cleaned.shrinks {d : Nat} (h : Cleaned d m w w') (hc : Cleans (w.store m).Live m w w')
    (hi : w.Inv) (hm : w.made m = true) : Shrinks m w w' := by
  have ht := hi.table m hm
  have hcell : ∀ k a, k ≠ m → w.made k = true → (w.store k).Live a → w'.heap.cell a = w.heap.cell a :=
    fun k a hk hmk ha => hc.tidies.other a (hi.disjoint k m a hmk hm hk ha)
  have hother := fun k hk hmk => hi.other hmk (h.others k hk) fun a ha =>
    recounted_of_cell ((hi.table k hmk).nodes.has a ha) (hcell k a hk hmk ha)
  have hcon : ∀ k, w'.consts k = w.consts k := fun k => by
    by_cases hkm : k = m
    · subst hkm
      exact h.consts
    · exact congrArg Manager.toConsts (h.others k hkm)
  have hhas : ∀ k a, w.made k = true → (w.store k).Live a → (w'.heap.Has a ↔ (w'.store k).Live a) := by
    intro k a hk ha
    by_cases hkm : k = m
    · subst hkm
      exact ⟨fun hs => ((h.tidied.has a).mp hs).2 ha, fun hs => h.tidied.inv.table.has hs⟩
    · have hl := ((hother k hkm hk).2.2 a).mpr ha
      exact ⟨fun _ => hl, fun _ => (hother k hkm hk).1.nodes.has a hl⟩
  have hsub : ∀ k a, w.made k = true → (w'.store k).Live a → (w.store k).Live a := by
    intro k a hk ha
    by_cases hkm : k = m
    · subst hkm
      exact h.tidied.sub a ha
    · exact ((hother k hkm hk).2.2 a).mp ha
  have hnode : ∀ k a, w.made k = true → (w'.store k).Live a →
      (w.heap.get a).Alike (w'.heap.get a) := by
    intro k a hk ha
    by_cases hkm : k = m
    · subst hkm
      exact h.tidied.node a ha
    · have hl := hsub k a hk ha
      exact (recounted_of_cell ((hi.table k hk).nodes.has a hl) (hcell k a hkm hk hl)).2.alike
  have hclosed : ∀ k a c, w.made k = true → (w'.store k).Live a → w.heap.Child a c →
      (w'.store k).Live c := by
    intro k a c hk ha hac
    by_cases hkm : k = m
    · subst hkm
      exact h.tidied.closed a c ha hac
    · exact ((hother k hkm hk).2.2 c).mpr ((hi.table k hk).nodes.child_mem a c (hsub k a hk ha) hac)
  have hlive : ∀ k a, w.made k = true → (w.store k).Live a → w'.heap.frees a = w.heap.frees a →
      (w'.store k).Live a := fun k a hk ha hf =>
    (hhas k a hk ha).mp (hc.tidies.gone a ((hi.table k hk).nodes.has a ha) hf)
  refine ⟨h.made, h.consts, h.others, ⟨fun k hk => by rw [h.made]; exact hk, fun k _ => hcon k,
    hc.tidies.mono, hlive, fun k a hk ha hf => hnode k a hk (hlive k a hk ha hf),
    fun k a f hk hs hf => ⟨hlive k a hk hs.1 hf, ?_⟩⟩, h.tidied.sub, fun b a hb hr hba => ?_,
    fun k a hk ha => hc.tidies.frees a ((hhas k a hk (hsub k a hk ha)).mpr ha), fun a => ?_,
    h.aside.freeId, h.inv hi hm⟩
  · rw [hcon k]
    exact (hi.table k hk).nodes.keepPart (hsub k · hk) (fun b c hb => hclosed k b c hk hb)
      (fun b hb => ⟨(hhas k b hk (hsub k b hk hb)).mpr hb, (hnode k b hk hb).same⟩)
      (hlive k a hk hs.1 hf) hs.2
  · exact (hhas m a hm (hba.mem ht.nodes.child_mem hb)).mp
      (hc.tidies.kept b a hb (ht.nodes.has b hb) hr hba)
  · by_cases ha : w'.heap.Has a
    · exact (hc.tidies.same a ha).2
    · -- what is gone was not referenced
      rw [Heap.get_of_not_has ha]
      by_contra hne
      obtain ⟨k, hk, hl⟩ := hi.counted a fun h0 => hne h0.symm
      have hha := (hi.table k hk).nodes.has a hl
      by_cases hkm : k = m
      · subst hkm
        exact ha (hc.tidies.kept a a hl hha (fun h0 => hne h0.symm) .refl)
      · exact ha (recounted_of_cell hha (hcell k a hkm hk hl)).1

/-- The table and the memo tables can grow once more, and still be as long as the masks
assume. -/
structure Roomy (w : World) (m : Nat) : Prop where
  set : (w.mgr m).set.sizeExp % 64 < 30
  not : (w.mgr m).notCache.sizeExp % 64 < 30
  cache : ∀ c, ((w.mgr m).cache c).sizeExp % 64 < 30

theorem Roomy.fits (h : w.Roomy m) (hi : w.Inv) (hm : w.made m = true) : w.Fits m where
  set := (hi.table m hm).len.trans (rangeI32_eq_shl64 (Nat.lt_succ_of_lt h.set))
  not := (hi.caches m hm).notLen.trans (rangeI32_eq_shl64 (Nat.lt_succ_of_lt h.not))
  cache c := ((hi.caches m hm).len c).trans (rangeI32_eq_shl64 (Nat.lt_succ_of_lt (h.cache c)))

theorem Cleaned.fits {d : Nat} (hd : d ≤ 1) (h : Cleaned d m w w') (hr : w.Roomy m) : w'.Fits m := by
  have hexp : ∀ {e e' : Nat}, e' = e + d → e % 64 < 30 → rangeI32 e' = shl64 e' := by
    intro e e' he hlt
    refine rangeI32_eq_shl64 ?_
    omega
  exact ⟨h.tidied.len.trans (hexp h.exp hr.set), h.notLen.trans (hexp h.notExp hr.not),
    fun c => (h.cacheLen c).trans (hexp (h.cacheExp c) (hr.cache c))⟩

/-- Arrays that do not grow. -/
theorem Cleaned.fits_same (h : Cleaned 0 m w w') (hi : w.Inv) (hm : w.made m = true)
    (hf : w.Fits m) : w'.Fits m := by
  have hset : rangeI32 (w.mgr m).set.sizeExp = shl64 (w.mgr m).set.sizeExp :=
    (hi.table m hm).len.symm.trans hf.set
  have hnot : rangeI32 (w.mgr m).notCache.sizeExp = shl64 (w.mgr m).notCache.sizeExp :=
    (hi.caches m hm).notLen.symm.trans hf.not
  have hcache : ∀ c, rangeI32 ((w.mgr m).cache c).sizeExp = shl64 ((w.mgr m).cache c).sizeExp :=
    fun c => ((hi.caches m hm).len c).symm.trans (hf.cache c)
  refine ⟨h.tidied.len.trans ?_, h.notLen.trans ?_, fun c => (h.cacheLen c).trans ?_⟩
  · rw [show (w'.store m).set.sizeExp = _ from h.exp]
    exact hset
  · rw [h.notExp]
    exact hnot
  · rw [h.cacheExp c]
    exact hcache c

/-- The lock does not matter for what was cleaned up. -/
theorem Cleaned.relock {d : Nat} {l : RwLock} (h : Cleaned d m (w.withLock m l) w') :
    Cleaned d m w (w'.withLock m (w.mgr m).rwLock) := by
  have hw := withLock_mgr w m l
  have hw' := withLock_mgr w' m (w.mgr m).rwLock
  have hs := withLock_store w m l m
  have hs' := withLock_store w' m (w.mgr m).rwLock m
  refine
    { made := h.made
      others := fun k hk => by
        rw [withLock_mgr_of_ne _ _ _ hk, h.others k hk, withLock_mgr_of_ne _ _ _ hk]
      consts := by
        rw [withLock_consts, h.consts, withLock_consts]
      lock := by rw [hw']
      tidied := ?_
      exp := ?_
      notEmpty := ?_
      notLen := ?_
      notExp := ?_
      empty := ?_
      cacheLen := ?_
      cacheExp := ?_
      aside := ?_ }
  · rw [hs', ← hs]
    exact h.tidied
  · have := h.exp
    rw [hw] at this
    rw [hw']
    exact this
  · rw [hw']
    exact h.notEmpty
  · rw [hw']
    exact h.notLen
  · have := h.notExp
    rw [hw] at this
    rw [hw']
    exact this
  · rw [hw']
    exact h.empty
  · rw [hw']
    exact h.cacheLen
  · have := h.cacheExp
    rw [hw] at this
    rw [hw']
    exact this
  · have := h.aside
    rw [hs] at this
    exact ⟨this.zero, this.has, this.node, this.freeId⟩

theorem Cleans.withLock {V : Bdd → Prop} (w : World) (m : Nat) (l : RwLock) :
    Cleans V m w (w.withLock m l) :=
  ⟨rfl, withLock_consts .., fun k hk => withLock_mgr_of_ne _ _ _ hk, by
    rw [withLock_store]
    exact .refl _⟩

end World

namespace Manager

open World

/-! ## Cleaning up -/

/-- Thread `t` alone, while manager `m` is cleaned up. -/
def tidying (V : Bdd → Prop) (m t : Nat) (tol bad : Prop) : Logic ops World :=
  Logic.alone (exec m t) (Cleans V m) fun e _ => e = .spin ∧ tol ∨ e = .panic ∧ bad

section
variable {V : Bdd → Prop} {m t n : Nat} {tol bad : Prop} {α : Type} {w w' w₁ : World}

theorem wp_tidying {p : Prog ops α} {Q : α → World → Prop}
    (h : wp (cleaning V m t tol bad) p Q w) : wp (tidying V m t tol bad) p Q w :=
  wp_weaken (L := cleaning V m t tol bad) (M := tidying V m t tol bad) rfl (fun w w' (he : w = w') => he ▸ Drops.refl m w) (fun _ _ h => h)
    (fun _ _ _ => trivial) (fun _ _ h => h) (fun _ _ => trivial) h

/-- A step that only changes the lock. -/
theorem wp_lock {o : Op} {k : ops.Res o → Prog ops α} {Q : α → World → Prop} {r : ops.Res o}
    {l : RwLock} (he : exec m t o w = .ok (r, w.withLock m l))
    (h : wp (tidying V m t tol bad) (k r) Q (w.withLock m l)) :
    wp (tidying V m t tol bad) (step o >>= k) Q w :=
  wp_answer he (.withLock w m l) h

theorem exec_entryNum : exec m t (.acc .entryNum) w = .ok ((w.mgr m).set.numEntry, w) := by
  simp only [exec]
  exact congrArg (fun w => Except.ok (_, w)) (put_self w m)

theorem exec_sizeExp : exec m t (.acc .sizeExp) w = .ok ((w.mgr m).set.sizeExp, w) := by
  simp only [exec]
  exact congrArg (fun w => Except.ok (_, w)) (put_self w m)

theorem exec_notGet_ok {hash : UInt64} {a v : Bdd} (h : (w.mgr m).notCache.get hash a = .ok v) :
    exec m t (.notGet hash a) w = .ok (v, w) := by
  simp only [exec, h]

theorem exec_notGet_error {hash : UInt64} {a : Bdd} {e : Stop}
    (h : (w.mgr m).notCache.get hash a = .error e) : exec m t (.notGet hash a) w = .error e := by
  simp only [exec, h]

theorem exec_low_fault {a : Bdd} (h : ¬ w.heap.Has a) :
    exec m t (.acc (.low a)) w = .error .fault := by
  simp only [exec, Store.exec, Store.look, store, Heap.cell_of_not_has h]

theorem exec_tryPending (h : w.Idle m) :
    exec m t .tryPending w = .ok (true, w.withLock m ⟨[], some (t, false)⟩) := by
  unfold Idle at h
  simp only [exec, h, withLock]

theorem exec_awaitReaders {o : Option (Nat × Bool)} (h : (w.mgr m).rwLock = ⟨[], o⟩) :
    exec m t .awaitReaders w = .ok ((), w.withLock m ⟨[], some (t, true)⟩) := by
  simp only [exec, h, withLock, change]
  exact if_pos trivial

theorem exec_dropWrite {o : Option (Nat × Bool)} (h : (w.mgr m).rwLock = ⟨[], o⟩) :
    exec m t .dropWrite w = .ok ((), w.withLock m ⟨[], none⟩) := by
  simp only [exec, h, withLock, change]
  rfl

theorem exec_read (h : w.Idle m) :
    exec m t .read w = .ok ((), w.withLock m ⟨[t], none⟩) := by
  unfold Idle at h
  simp only [exec, h, withLock, change]
  exact if_pos trivial

theorem Enough.withLock {l : RwLock} (h : Enough w m n) : Enough (w.withLock m l) m n :=
  ⟨h.chain, by rw [withLock_consts]; exact h.level⟩

/-- What `cleanUp` does, whatever the lock. -/
theorem CleanedUp.relock {e b : Nat} {l : RwLock} (h : CleanedUp m e b (w.withLock m l) w') :
    CleanedUp m e b w (w'.withLock m (w.mgr m).rwLock) := by
  obtain ⟨M, hM, h⟩ := h
  rw [withLock_store] at hM
  rw [withLock_store] at h
  refine ⟨M, hM, h.imp (fun ⟨h1, h2, h3⟩ => ⟨h1, h2.relock, ?_⟩)
    fun ⟨h1, h2, h3⟩ => ⟨h1, h2.relock, ?_⟩⟩
  · rw [withLock_store]
    exact h3
  · rw [withLock_store]
    exact h3

/-- The write lock around a cleaning. -/
theorem wp_locked {β : Type} (hl : w.Idle m) {p : Prog ops α} {k : α → Prog ops β}
    {P : α → World → Prop} {Q : β → World → Prop}
    (hp : ∀ l, wp (cleaning (w.store m).Live m t tol bad) p (fun a w' =>
      (w'.mgr m).rwLock = l ∧ P a (w'.withLock m (w.mgr m).rwLock)) (w.withLock m l))
    (hk : ∀ a w', w'.Idle m → P a w' → wp (tidying (w.store m).Live m t tol bad) (k a) Q w') :
    wp (tidying (w.store m).Live m t tol bad) (do
      let _ : Unit ← step .awaitReaders
      let a ← p
      let _ : Unit ← step .dropWrite
      k a) Q (w.withLock m ⟨[], some (t, false)⟩) := by
  refine wp_lock (exec_awaitReaders (by rw [withLock_mgr])) ?_
  rw [withLock_withLock]
  refine wp_seq (wp_tidying (hp _)) ?_
  rintro a w' ⟨hlock, hP⟩
  have hl' : (w.mgr m).rwLock = ⟨[], none⟩ := hl
  rw [hl'] at hP
  refine wp_lock (exec_dropWrite hlock) (hk a _ ?_ hP)
  unfold Idle
  rw [withLock_mgr]

/-- **`gc`**, by a thread alone. -/
theorem wp_gc (hi : w.Inv) (hm : w.made m = true) (hl : w.Idle m)
    (hbad : ¬ (w.store m).Sized → bad) (hn : tol ∨ Enough w m n) :
    wp (tidying (w.store m).Live m t tol bad) (gc n) (fun c w' =>
      Cleaned 0 m w w' ∧ w'.Idle m ∧ ∃ M : Finset Bdd, c = M.card ∧
        (w.store m).Survivors M ∧ ∀ a, (w'.store m).Live a ↔ a ∈ M) w := by
  unfold gc
  refine wp_lock (exec_tryPending hl) (wp_locked hl (P := fun c w' => Cleaned 0 m w w' ∧
    ∃ M : Finset Bdd, c = M.card ∧ (w.store m).Survivors M ∧ ∀ a, (w'.store m).Live a ↔ a ∈ M)
    (fun l => ?_) fun c w' hl' h => ⟨h.1, hl', h.2⟩)
  have h := wp_collect (t := t) (hi.withLock m l) hm (by rw [withLock_store]; exact hbad)
    (hn.imp_right Enough.withLock)
  simp only [withLock_store] at h
  refine wp_mono (fun c w' h => ⟨?_, h.1.relock, ?_⟩) h
  · rw [h.1.lock, withLock_mgr]
  · rw [withLock_store]
    exact h.2

/-- The table of manager `m` has as many nodes as buckets. -/
def Loaded (w : World) (m : Nat) : Prop :=
  shl64 (w.mgr m).set.sizeExp * MAX_LOAD_FACTOR ≤ (w.mgr m).set.numEntry

/-- `enter_op` has the arrays grow: the table is full, and next to the nodes that are marked there
are too few others. -/
def Growing (w : World) (m : Nat) : Prop :=
  Loaded w m ∧ ∃ M, (w.store m).Survivors M ∧
    wrapSub (w.mgr m).set.numEntry M.card < shl64 (w.mgr m).set.sizeExp / 4

/-- The arrays of manager `m` are as long as the masks assume, and can grow once more where
`enter_op` has them grow. -/
structure Spacious (w : World) (m : Nat) : Prop where
  fits : w.Fits m
  grow : Growing w m → w.Roomy m

theorem spacious_of_roomy (h : w.Roomy m) (hi : w.Inv) (hm : w.made m = true) : Spacious w m :=
  ⟨h.fits hi hm, fun _ => h⟩

/-- `enter_op`, where the table has room. -/
theorem run_enterOp_roomy (hl : w.Idle m) (h : ¬ Loaded w m) :
    run (exec m t) (enterOp n) w = .ok ((), w.withLock m ⟨[t], none⟩) := by
  have hif : ∀ p q : Prog ops Bool, (if shl64 (w.mgr m).set.sizeExp * MAX_LOAD_FACTOR ≤
      (w.mgr m).set.numEntry then p else q) = q := fun _ _ => if_neg h
  unfold enterOp
  refine (run_step_ok exec_entryNum).trans ((run_step_ok exec_sizeExp).trans ?_)
  refine (congrArg (fun p => run _ (Prog.bind p _) w) (hif _ _)).trans ?_
  exact run_step_ok (exec_read hl)

/-- What `enter_op` does before it takes the read guard. -/
def Entering (m : Nat) (w w' : World) : Prop :=
  (¬ Loaded w m ∧ w' = w) ∨
    (Loaded w m ∧ CleanedUp m (w.mgr m).set.numEntry (shl64 (w.mgr m).set.sizeExp) w w')

theorem Entering.cleaned (h : Entering m w w') : w' = w ∨ ∃ d ≤ 1, Cleaned d m w w' := by
  rcases h with ⟨-, rfl⟩ | ⟨-, M, -, ⟨-, h, -⟩ | ⟨-, h, -⟩⟩
  · exact Or.inl rfl
  · exact Or.inr ⟨1, Nat.le_refl 1, h⟩
  · exact Or.inr ⟨0, Nat.zero_le 1, h⟩

/-- **`enter_op`**, by a thread alone. -/
theorem wp_enterOp (hi : w.Inv) (hm : w.made m = true) (hl : w.Idle m)
    (hbad : ¬ (w.store m).Sized → bad)
    (hroom : Growing w m →
      rangeI32 ((w.mgr m).set.sizeExp + 1) ≠ shl64 ((w.mgr m).set.sizeExp + 1) → bad)
    (hn : tol ∨ Enough w m n) :
    wp (tidying (w.store m).Live m t tol bad) (enterOp n) (fun _ w' =>
      ∃ w₁, Entering m w w₁ ∧ w₁.Idle m ∧ w' = w₁.withLock m ⟨[t], none⟩) w := by
  unfold enterOp
  refine wp_answer exec_entryNum (.refl w) ?_
  refine wp_answer exec_sizeExp (.refl w) ?_
  refine wp_seq (P := fun b w' => b = shl64 (w.mgr m).set.sizeExp ∧ w' = w) ⟨rfl, rfl⟩ ?_
  intro b w₁ hb
  rw [hb.1, hb.2]
  refine wp_bind.mpr (wp_ite (shl64 (w.mgr m).set.sizeExp * MAX_LOAD_FACTOR ≤
    (w.mgr m).set.numEntry) (fun hfull => ?_) fun hfull => ?_)
  · refine wp_answer (exec_tryPending hl) (.withLock w m _) ?_
    refine wp_locked hl (P := fun _ => CleanedUp m (w.mgr m).set.numEntry
      (shl64 (w.mgr m).set.sizeExp) w) (fun l => ?_) fun _ w' hl' hc => ?_
    · have h := wp_cleanUp (t := t) (hi.withLock m l) hm (by rw [withLock_store]; exact hbad)
        (hn.imp_right Enough.withLock) (w.mgr m).set.numEntry (shl64 (w.mgr m).set.sizeExp)
        fun M hM hfew => by
          rw [withLock_mgr]
          exact hroom ⟨hfull, M, by rwa [withLock_store] at hM, hfew⟩
      simp only [withLock_store] at h
      refine wp_mono (fun _ w' h => ⟨?_, h.relock⟩) h
      obtain ⟨M, -, ⟨-, h, -⟩ | ⟨-, h, -⟩⟩ := h
      · rw [h.lock, withLock_mgr]
      · rw [h.lock, withLock_mgr]
    · exact wp_answer (exec_read hl') (.withLock w' m _) ⟨w', Or.inr ⟨hfull, hc⟩, hl', rfl⟩
  · exact wp_answer (exec_read hl) (.withLock w m _) ⟨w, Or.inl ⟨hfull, rfl⟩, hl, rfl⟩

/-- **`gc` of a thread alone**: it frees the nodes that no referenced one reaches, and answers
with the number of the others.  It may run out of rounds. -/
theorem run_gc (hi : w.Inv) (hm : w.made m = true) (hl : w.Idle m) (t n : Nat) :
    (∃ c w', run (exec m t) (gc n) w = .ok (c, w') ∧ Shrinks m w w' ∧ w'.Idle m ∧ Cleaned 0 m w w' ∧
      (∀ a, (w'.store m).Live a ↔ ∃ r, (w.store m).Live r ∧ (w.heap.get r).refCnt ≠ 0 ∧
        w.heap.Reaches r a) ∧
      ∃ M : Finset Bdd, c = M.card ∧ ∀ a, a ∈ M ↔ (w'.store m).Live a) ∨
    run (exec m t) (gc n) w = .error .spin ∧ ¬ Enough w m n := by
  have h := wp_run (fun _ => .refl _) (fun _ _ _ => .trans) (wp_gc (t := t) (n := n)
    hi hm hl (fun hs => (hs (hi.table m hm).sized : False))
    (Classical.em (Enough w m n)).symm)
  rcases h with ⟨c, w', hrun, ⟨hc, hl', M, hcard, hM, hlive⟩, hclean⟩ | ⟨e, w', hrun, hstop, -⟩
  · have hs := hc.shrinks hclean hi hm
    refine Or.inl ⟨c, w', hrun, hs, hl', hc, fun a => ⟨fun ha => ?_, ?_⟩, M, hcard,
      fun a => (hlive a).symm⟩
    · exact hM.origin a ((hlive a).mp ha)
    · rintro ⟨r, hr, hne, hra⟩
      exact hs.kept r a hr hne hra
  · rcases hstop with ⟨rfl, hn⟩ | ⟨-, h⟩
    · exact Or.inr ⟨hrun, hn⟩
    · exact h.elim

/-- What `enter_op` of thread `t` leaves, alone. -/
structure Entered (m t : Nat) (w w₁ w' : World) : Prop where
  entering : Entering m w w₁
  idle : w₁.Idle m
  eq : w' = w₁.withLock m ⟨[t], none⟩
  shrinks : Shrinks m w w₁

theorem Entered.fits (h : Entered m t w w₁ w') (hi : w.Inv) (hm : w.made m = true)
    (hs : Spacious w m) : w₁.Fits m := by
  rcases h.entering with ⟨-, rfl⟩ | ⟨hload, M, hM, ⟨hfew, hc, -⟩ | ⟨-, hc, -⟩⟩
  · exact hs.fits
  · exact hc.fits (Nat.le_refl 1) (hs.grow ⟨hload, M, hM, hfew⟩)
  · exact hc.fits_same hi hm hs.fits

theorem run_enterOp (hi : w.Inv) (hm : w.made m = true) (hl : w.Idle m) (t n : Nat) :
    (∃ w₁ w', run (exec m t) (enterOp n) w = .ok ((), w') ∧ Entered m t w w₁ w') ∨
    ∃ e, run (exec m t) (enterOp n) w = .error e ∧ (e = .spin ∧ ¬ Enough w m n ∨
      e = .panic ∧ Growing w m ∧
        rangeI32 ((w.mgr m).set.sizeExp + 1) ≠ shl64 ((w.mgr m).set.sizeExp + 1)) := by
  have h := wp_run (fun _ => .refl _) (fun _ _ _ => .trans) (wp_enterOp (t := t) (n := n)
    hi hm hl (fun hs => absurd (hi.table m hm).sized hs)
    (fun hg (h : rangeI32 ((w.mgr m).set.sizeExp + 1) ≠ shl64 ((w.mgr m).set.sizeExp + 1)) =>
      And.intro hg h)
    (Classical.em (Enough w m n)).symm)
  rcases h with ⟨_, w', hrun, ⟨w₁, h1, hl₁, rfl⟩, hclean⟩ | ⟨e, w', hrun, hstop, -⟩
  · refine Or.inl ⟨w₁, _, hrun, h1, hl₁, rfl, ?_⟩
    rcases h1.cleaned with rfl | ⟨d, -, hc⟩
    · exact .refl hi hm
    · have hback := hclean.trans (.withLock _ m (w₁.mgr m).rwLock)
      rw [withLock_withLock, withLock_self] at hback
      exact hc.shrinks hback hi hm
  · exact Or.inr ⟨e, hrun, hstop⟩

/-! ## The recursions -/

/-- A program under a read guard, alone. -/
theorem run_reading {tol : Prop} {p : Prog ops α} {Q : α → World → Prop} (hi : w.Inv)
    (hm : w.made m = true) (h : wp (reading m t tol) p Q w) :
    (∃ a w', run (exec m t) p w = .ok (a, w') ∧ Q a w' ∧ Works m t w w') ∨
    ∃ e, run (exec m t) p w = .error e ∧ (e = .spin ∧ tol ∨ e = .panic ∧ ¬ w.Fits m) := by
  have halone := wp_weaken (L := reading m t tol) (M := Logic.alone (exec m t)
    (fun w w' => w.Inv → w.made m = true → Works m t w w')
    (fun e w => e = .spin ∧ tol ∨ e = .panic ∧ ¬ w.Fits m)) rfl
    (fun w w' (he : w = w') => he ▸ fun hi hm => ⟨hi, Reads.refl hi hm⟩) (fun _ _ h => h)
    (fun _ _ _ => trivial) (fun _ _ h => h) (fun _ _ => trivial) h
  have hrun := wp_run (fun w hi hm => Works.refl hi hm) (fun w₁ w₂ w₃ h1 h2 hi hm =>
    (h1 hi hm).trans hi (h2 (h1 hi hm).inv (by rw [(h1 hi hm).reads.made]; exact hm))) halone
  rcases hrun with ⟨a, w', hrun, hq, hg⟩ | ⟨e, w', hrun, hs, hg⟩
  · exact Or.inl ⟨a, w', hrun, hq, hg hi hm⟩
  · refine Or.inr ⟨e, hrun, hs.imp_right (And.imp_right fun hf hf' => hf ?_)⟩
    exact (hg hi hm).reads.fits.mpr hf'

theorem put_edit (w : World) (m : Nat) (a : Bdd) (f : UInt64 → UInt64) :
    w.put m { w.store m with
      heap := (w.store m).heap.modify a fun n => { n with refCnt := f n.refCnt } } =
      w.recount a f := by
  unfold put setMgr recount store
  simp only [Function.update_eq_self]

theorem exec_fetchAdd {a : Bdd} (ha : w.heap.Has a) :
    exec m t (.acc (.fetchAdd a)) w = .ok ((), w.recount a (· + 1)) := by
  simp only [exec, Store.exec, Store.exec_edit (s := w.store m) ha, put_edit w m a (· + 1)]

theorem exec_fetchSub {a : Bdd} (ha : w.heap.Has a) :
    exec m t (.acc (.fetchSub a)) w = .ok ((), w.recount a (· - 1)) := by
  simp only [exec, Store.exec, Store.exec_edit (s := w.store m) ha, put_edit w m a (· - 1)]

theorem exec_dropRead (h : (w.mgr m).rwLock = ⟨[t], none⟩) :
    exec m t .dropRead w = .ok ((), w.withLock m ⟨[], none⟩) := by
  simp only [exec, h, withLock, change, List.erase_cons_head]
  rfl

end

/-! ## The operations -/

/-- An operation of a client, with its operands. -/
inductive Call where
  | not (bdd : Bdd)
  | and (lhs rhs : Bdd)
  | or (lhs rhs : Bdd)
  | comp (lhs rhs : Bdd)
  deriving DecidableEq, Repr

namespace Call

def prog (g : Consts) (n : Nat) : Call → Prog ops Bdd
  | .not bdd => Manager.not g bdd n
  | .and lhs rhs => Manager.and g lhs rhs n
  | .or lhs rhs => Manager.or g lhs rhs n
  | .comp lhs rhs => Manager.comp g lhs rhs n

/-- The recursion of an operation. -/
def recur (g : Consts) (n : Nat) : Call → Prog ops Bdd
  | .not bdd => notRec g n bdd
  | .and lhs rhs => andRec g n lhs rhs
  | .or lhs rhs => orRec g n lhs rhs
  | .comp lhs rhs => compRec g n lhs rhs

/-- The function an operation is for, where `S` says what its operands stand for. -/
def Spec (S : Bdd → BoolFn → Prop) : Call → BoolFn → Prop
  | .not bdd, F => ∃ f, S bdd f ∧ F = fun x => !(f x)
  | .and lhs rhs, F => ∃ f f', S lhs f ∧ S rhs f' ∧ F = fun x => f x && f' x
  | .or lhs rhs, F => ∃ f f', S lhs f ∧ S rhs f' ∧ F = fun x => f x || f' x
  | .comp lhs rhs, F => ∃ f f', S lhs f ∧ S rhs f' ∧ F = fun x => f x && !(f' x)

/-- The operands. -/
def args : Call → List Bdd
  | .not bdd => [bdd]
  | .and lhs rhs | .or lhs rhs | .comp lhs rhs => [lhs, rhs]

theorem prog_eq (g : Consts) (n : Nat) (c : Call) : c.prog g n = operation n (c.recur g n) := by
  cases c <;> rfl

theorem Spec.mono {S S' : Bdd → BoolFn → Prop} {c : Call} {F : BoolFn}
    (h : c.Spec S F) (hS : ∀ a ∈ c.args, ∀ f, S a f → S' a f) : c.Spec S' F := by
  cases c with
  | not a =>
    obtain ⟨f, h1, h2⟩ := h
    exact ⟨f, hS a (by simp [args]) f h1, h2⟩
  | and a b | or a b | comp a b =>
    obtain ⟨f, f', h1, h2, h3⟩ := h
    exact ⟨f, f', hS a (by simp [args]) f h1, hS b (by simp [args]) f' h2, h3⟩

/-- Operands that stand for something give the operation something to answer. -/
theorem exists_spec {S : Bdd → BoolFn → Prop} {c : Call} (h : ∀ a ∈ c.args, ∃ f, S a f) :
    ∃ F, c.Spec S F := by
  cases c with
  | not a =>
    obtain ⟨f, hf⟩ := h a (by simp [args])
    exact ⟨_, f, hf, rfl⟩
  | and a b | or a b | comp a b =>
    obtain ⟨f, hf⟩ := h a (by simp [args])
    obtain ⟨f', hf'⟩ := h b (by simp [args])
    exact ⟨_, f, f', hf, hf', rfl⟩

end Call

/-! ### Their steps -/

/-- The steps of the recursions. -/
def Op.Recurs : Op → Prop
  | .acc (.low _) | .acc (.high _) | .acc (.level _) | .makeNode _ _ _ | .notGet _ _
  | .notInsert _ _ _ | .get _ _ _ | .insert _ _ _ _ | .spinLoop => True
  | _ => False

theorem recurs_step {o : Op} (ho : o.Recurs) : (step o).Only Op.Recurs := ⟨ho, fun _ => trivial⟩

theorem recurs_spinLoop {α : Type} : (spinLoop : Prog ops α).Only Op.Recurs :=
  ⟨trivial, fun r => r.elim⟩

theorem recurs_notRec (g : Consts) : ∀ n a, (notRec g n a).Only Op.Recurs := by
  intro n
  induction n with
  | zero => exact fun _ => recurs_spinLoop
  | succ n ih =>
    intro a
    refine .ite _ trivial (.ite _ trivial ?_)
    refine .bind (recurs_step trivial) fun v => .ite _ trivial ?_
    refine .bind (recurs_step trivial) fun low => .bind (ih low) fun _ => ?_
    refine .bind (recurs_step trivial) fun high => .bind (ih high) fun _ => ?_
    exact .bind (recurs_step trivial) fun _ => .bind (recurs_step trivial) fun _ =>
      .bind (recurs_step trivial) fun _ => trivial

theorem recurs_binRec (c : Memo) {rec : Bdd → Bdd → Prog ops Bdd} (hrec : ∀ a b, (rec a b).Only Op.Recurs)
    (a b : Bdd) : (binRec c rec a b).Only Op.Recurs := by
  -- the two recursive calls after one access each, and the new node
  have hone : ∀ {o o' o'' : Op} {f : ops.Res o → Prog ops Bdd} {f' : ops.Res o' → Prog ops Bdd}
      {k : Bdd → Bdd → ops.Res o'' → Prog ops Bdd}, o.Recurs → o'.Recurs → o''.Recurs →
      (∀ r, (f r).Only Op.Recurs) → (∀ r, (f' r).Only Op.Recurs) → (∀ v v' r, (k v v' r).Only Op.Recurs) →
      (step o >>= fun r => f r >>= fun v => step o' >>= fun r' => f' r' >>= fun v' =>
        step o'' >>= fun r'' => k v v' r'' : Prog ops Bdd).Only Op.Recurs := by
    intro o o' o'' f f' k ho ho' ho'' hf hf' hk
    exact .bind (recurs_step ho) fun r => .bind (hf r) fun v => .bind (recurs_step ho') fun r' =>
      .bind (hf' r') fun v' => .bind (recurs_step ho'') fun r'' => hk v v' r''
  refine .bind (recurs_step trivial) fun v => .ite _ trivial ?_
  refine .bind (recurs_step trivial) fun l => .bind (recurs_step trivial) fun l' => ?_
  refine .bind (.ite _ ?_ (.ite _ ?_ ?_)) fun res => .bind (recurs_step trivial) fun _ => trivial
  · exact hone trivial trivial trivial (fun r => hrec r b) (fun r => hrec r b) fun _ _ _ =>
      recurs_step trivial
  · exact hone trivial trivial trivial (fun r => hrec a r) (fun r => hrec a r) fun _ _ _ =>
      recurs_step trivial
  · refine .bind (recurs_step trivial) fun r => .bind (recurs_step trivial) fun r' =>
      .bind (hrec r r') fun _ => ?_
    refine .bind (recurs_step trivial) fun r => .bind (recurs_step trivial) fun r' =>
      .bind (hrec r r') fun _ => ?_
    exact .bind (recurs_step trivial) fun _ => recurs_step trivial

theorem recurs_andRec (g : Consts) : ∀ n a b, (andRec g n a b).Only Op.Recurs := by
  intro n
  induction n with
  | zero => exact fun _ _ => recurs_spinLoop
  | succ n ih =>
    exact fun a b => .ite _ trivial (.ite _ trivial (.ite _ trivial (recurs_binRec _ ih _ _)))

theorem recurs_orRec (g : Consts) : ∀ n a b, (orRec g n a b).Only Op.Recurs := by
  intro n
  induction n with
  | zero => exact fun _ _ => recurs_spinLoop
  | succ n ih =>
    exact fun a b => .ite _ trivial (.ite _ trivial (.ite _ trivial (recurs_binRec _ ih _ _)))

theorem recurs_compRec (g : Consts) : ∀ n a b, (compRec g n a b).Only Op.Recurs := by
  intro n
  induction n with
  | zero => exact fun _ _ => recurs_spinLoop
  | succ n ih =>
    exact fun a b => .ite _ trivial (.ite _ trivial (.ite _ (recurs_notRec g n b)
      (recurs_binRec _ ih _ _)))

theorem recurs_recur (g : Consts) (n : Nat) (c : Call) : (c.recur g n).Only Op.Recurs := by
  cases c with
  | not a => exact recurs_notRec g n a
  | and a b => exact recurs_andRec g n a b
  | or a b => exact recurs_orRec g n a b
  | comp a b => exact recurs_compRec g n a b

/-! ### What they answer -/

section
variable {m t n : Nat} {g : Consts} {tol : Prop} {w w' : World} {c : Call} {F : BoolFn}

theorem rank_le (g : Consts) (h : Heap) (a : Bdd) : g.rank h a ≤ g.numVars := by
  unfold Consts.rank
  split
  · exact Nat.zero_le _
  · exact Nat.sub_le _ _

/-- **The recursions**, all four. -/
theorem wp_rec (hw : Now g m w) (hc : c.Spec (w.Stands m) F) (hn : tol ∨ g.numVars + 1 < n) :
    wp (reading m t tol) (c.recur g n) (Answer g m w F) w := by
  have hmax : ∀ a b, tol ∨ max (g.rank w.heap a) (g.rank w.heap b) + 1 < n := fun a b =>
    hn.imp_right (Nat.lt_of_le_of_lt (Nat.succ_le_succ (max_le (rank_le ..) (rank_le ..))))
  cases c with
  | not a =>
    obtain ⟨f, h1, rfl⟩ := hc
    exact wp_notRec n a f w hw h1 ((hmax a a).imp_right fun h => by omega)
  | and a b =>
    obtain ⟨f, f', h1, h2, rfl⟩ := hc
    exact wp_andRec n a b f f' w hw h1 h2 ((hmax a b).imp_right Nat.lt_of_succ_lt)
  | or a b =>
    obtain ⟨f, f', h1, h2, rfl⟩ := hc
    exact wp_orRec n a b f f' w hw h1 h2 ((hmax a b).imp_right Nat.lt_of_succ_lt)
  | comp a b =>
    obtain ⟨f, f', h1, h2, rfl⟩ := hc
    exact wp_compRec n a b f f' w hw h1 h2 (hmax a b)

/-- What a call of thread `t` that has entered in `w` has done when it answers `r`. -/
structure Answered (m t : Nat) (w w' : World) (r : Bdd) (F : BoolFn) : Prop where
  inv : w'.Inv
  made : w'.made = w.made
  idle : w'.Idle m
  others : ∀ k, k ≠ m → w'.mgr k = w.mgr k
  stands : w'.Stands m r F
  onward : Onward w w'
  frees : w'.heap.frees = w.heap.frees
  refs : (w'.heap.get r).refCnt = (w.heap.get r).refCnt + 1
  refsOther : ∀ a, a ≠ r → (w'.heap.get a).refCnt = (w.heap.get a).refCnt
  freeId : ∀ u, u ≠ t → w'.freeId u = w.freeId u

/-- An operation, from where it holds its read guard. -/
def answer (p : Prog ops Bdd) : Prog ops Bdd := do
  let ret ← p
  refBdd ret
  let _ : Unit ← step .dropRead
  return ret

theorem operation_eq (n : Nat) (p : Prog ops Bdd) :
    operation n p = enterOp n >>= fun _ => answer p := rfl

/-- What follows `enter_op`. -/
theorem run_answer (hi : w.Inv) (hm : w.made m = true) (hc : c.Spec (w.Stands m) F) (t n : Nat) :
    (∃ r w', run (exec m t) (answer (c.recur (w.consts m) n)) (w.withLock m ⟨[t], none⟩) =
      .ok (r, w') ∧ Answered m t w w' r F) ∨
    ∃ e, run (exec m t) (answer (c.recur (w.consts m) n)) (w.withLock m ⟨[t], none⟩) = .error e ∧
      (e = .spin ∧ ¬ (w.consts m).numVars + 1 < n ∨ e = .panic ∧ ¬ w.Fits m) := by
  have hi₁ := hi.withLock m ⟨[t], none⟩
  have hn : Now (w.consts m) m (w.withLock m ⟨[t], none⟩) := ⟨hi₁, hm, withLock_consts ..⟩
  have hon := Onward.withLock w m ⟨[t], none⟩
  have hspec : c.Spec ((w.withLock m ⟨[t], none⟩).Stands m) F :=
    hc.mono fun a _ f hs => hon.stands m a f hm hs rfl
  have hrun := run_reading hi₁ hm (wp_rec (t := t) (n := n)
    hn hspec (Classical.em ((w.consts m).numVars + 1 < n)).symm)
  unfold answer
  rcases hrun with ⟨r, w₂, hr, hans, hw⟩ | ⟨e, he, hstop⟩
  · obtain ⟨hn₂, -, hst⟩ := hans
    have hr₂ : w₂.heap.Has r := hn₂.table.nodes.has r hst.1
    have hlock : (w₂.mgr m).rwLock = ⟨[t], none⟩ := by rw [hw.lock, withLock_mgr]
    have hi₃ := hn₂.inv.recount hn₂.made hst.1 (· + 1)
    have hon₂ := hw.onward hi₁ hm
    have hon₃ := Onward.recount hn₂.inv r (· + 1)
    have hon₄ := Onward.withLock (w₂.recount r (· + 1)) m ⟨[], none⟩
    refine Or.inl ⟨r, (w₂.recount r (· + 1)).withLock m ⟨[], none⟩, ?_, ?_⟩
    · refine (run_bind ..).trans ?_
      rw [hr]
      exact (run_step_ok (exec_fetchAdd hr₂)).trans
        (run_step_ok (exec_dropRead (w := w₂.recount r (· + 1)) hlock))
    · exact
        { inv := hi₃.withLock m _
          made := hw.reads.made
          idle := by
            unfold Idle
            rw [withLock_mgr]
          others := fun k hk => by
            rw [withLock_mgr_of_ne _ _ _ hk, recount_mgr, hw.others k hk,
              withLock_mgr_of_ne _ _ _ hk]
          stands := hon₄.stands m r F hn₂.made (hon₃.stands m r F hn₂.made hst rfl) rfl
          onward := ((hon.trans hon₂).trans hon₃).trans hon₄
          frees := hw.frees
          refs := (recount_refs_self w₂ r (· + 1) hr₂).trans (congrArg (· + 1) (hw.refs r))
          refsOther := fun a ha => (recount_refs_of_ne w₂ r (· + 1) ha).trans (hw.refs a)
          freeId := hw.freeId }
  · refine Or.inr ⟨e, ?_, ?_⟩
    · exact (run_bind ..).trans (by rw [he])
    · rwa [withLock_fits] at hstop

/-- The state in which the recursion of a call starts: what is left of the table in `w₁` has the
constants and the operands of the call. -/
structure Usable (m : Nat) (c : Call) (w₁ : World) : Prop where
  top : (w₁.store m).Live (w₁.consts m).trueId
  bot : (w₁.store m).Live (w₁.consts m).falseId
  args : ∀ a ∈ c.args, (w₁.store m).Live a

/-- **A call that returns** has entered in a state `w₁`, and when its operands are in use there
it answers the operation of what they stand for. -/
theorem run_call (hi : w.Inv) (hm : w.made m = true) (hl : w.Idle m) {r : Bdd}
    (h : run (exec m t) (c.prog (w.consts m) n) w = .ok (r, w')) :
    ∃ w₁ w₂, run (exec m t) (enterOp n) w = .ok ((), w₂) ∧ Entered m t w w₁ w₂ ∧
      (Usable m c w₁ → ∃ F, c.Spec (w₁.Stands m) F ∧ Answered m t w₁ w' r F) := by
  rw [Call.prog_eq, operation_eq] at h
  have hb := (run_bind (exec m t) (enterOp n) (fun _ => answer (c.recur (w.consts m) n)) w).symm.trans h
  rcases run_enterOp hi hm hl t n with ⟨w₁, w₂, he, hent⟩ | ⟨e, he, -⟩
  · refine ⟨w₁, w₂, he, hent, fun hu => ?_⟩
    have hs := hent.shrinks
    rw [he, ← hs.consts, hent.eq] at hb
    have hcon := hs.consts
    have hi₁ : w₁.Inv := hs.inv (hcon ▸ hu.top) (hcon ▸ hu.bot)
    have hm₁ : w₁.made m = true := by rw [hs.made]; exact hm
    obtain ⟨F, hF⟩ := Call.exists_spec (S := w₁.Stands m) (c := c) fun a ha =>
      ((hi₁.table m hm₁).nodes.denotes (hu.args a ha)).imp fun f hf => ⟨hu.args a ha, hf⟩
    refine ⟨F, hF, ?_⟩
    rcases run_answer hi₁ hm₁ hF t n with ⟨r', w'', hr, ha⟩ | ⟨e, hr, -⟩
    · have := hr.symm.trans hb
      obtain ⟨rfl, rfl⟩ := Prod.mk.inj (Except.ok.inj this)
      exact ha
    · cases hr.symm.trans hb
  · rw [he] at hb
    cases hb

/-- **A call returns**, with enough rounds, when its operands are not collected; or it panics,
where there is no room. -/
theorem run_call_returns (hi : w.Inv) (hm : w.made m = true) (hl : w.Idle m) (hn : Enough w m n)
    (hu : ∀ w₁, Shrinks m w w₁ → Usable m c w₁) (t : Nat) :
    (∃ r w', run (exec m t) (c.prog (w.consts m) n) w = .ok (r, w')) ∨
      run (exec m t) (c.prog (w.consts m) n) w = .error .panic ∧ ¬ Spacious w m := by
  rw [Call.prog_eq, operation_eq]
  have hb := run_bind (exec m t) (enterOp n) (fun _ => answer (c.recur (w.consts m) n)) w
  rcases run_enterOp hi hm hl t n with ⟨w₁, w₂, he, hent⟩ | ⟨e, he, hstop⟩
  · have hs := hent.shrinks
    have hu₁ := hu w₁ hs
    have hcon := hs.consts
    have hi₁ : w₁.Inv := hs.inv (hcon ▸ hu₁.top) (hcon ▸ hu₁.bot)
    have hm₁ : w₁.made m = true := by rw [hs.made]; exact hm
    obtain ⟨F, hF⟩ := Call.exists_spec (S := w₁.Stands m) (c := c) fun a ha =>
      ((hi₁.table m hm₁).nodes.denotes (hu₁.args a ha)).imp fun f hf => ⟨hu₁.args a ha, hf⟩
    rw [he, hent.eq] at hb
    rcases run_answer hi₁ hm₁ hF t n with ⟨r, w', hr, -⟩ | ⟨e, hr, hstop⟩
    · rw [hcon] at hr
      exact Or.inl ⟨r, w', hb.trans hr⟩
    · rcases hstop with ⟨-, h⟩ | ⟨rfl, h⟩
      · rw [hcon] at h
        exact absurd hn.level h
      · rw [hcon] at hr
        exact Or.inr ⟨hb.trans hr, fun hroom => h (hent.fits hi hm hroom)⟩
  · rcases hstop with ⟨-, h⟩ | ⟨rfl, hgrow, h⟩
    · exact absurd hn h
    · rw [he] at hb
      refine Or.inr ⟨hb, fun hroom => h (rangeI32_eq_shl64 ?_)⟩
      have := (hroom.grow hgrow).set
      omega

/-- ... so it returns where there is room. -/
theorem run_call_total (hi : w.Inv) (hm : w.made m = true) (hl : w.Idle m) (hroom : Spacious w m)
    (hn : Enough w m n) (hu : ∀ w₁, Shrinks m w w₁ → Usable m c w₁) (t : Nat) :
    ∃ r w', run (exec m t) (c.prog (w.consts m) n) w = .ok (r, w') :=
  (run_call_returns hi hm hl hn hu t).resolve_right fun h => h.2 hroom

end

end Manager

end Tobdd
