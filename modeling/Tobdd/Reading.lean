import Tobdd.Invariant
import Tobdd.MakeNode

/-!
# Under a read guard

While a thread holds a read guard of a manager, the table of that manager only grows:
`Reads`.  That is what the thread relies on, and what each of its own steps does too
(`Works`, which also says what the step leaves alone).

The steps of the recursions, one by one: reading a node, looking into a memo table and
writing into it, and `make_node`, which makes the node that chooses between two others
(`wp_makeNode`).
-/

namespace Tobdd

open Resume Diagram

namespace World

/-- The table of manager `m` grows. -/
structure Reads (m : Nat) (w w' : World) : Prop where
  made : w'.made = w.made
  consts : w'.consts m = w.consts m
  live : ∀ a, (w.store m).Live a → (w'.store m).Live a
  has : ∀ a, (w.store m).Live a → w'.heap.Has a
  node : ∀ a, (w.store m).Live a → (w.heap.get a).Alike (w'.heap.get a)
  fits : w'.Fits m ↔ w.Fits m

theorem Reads.refl {m : Nat} {w : World} (h : w.Inv) (hm : w.made m = true) : Reads m w w :=
  ⟨rfl, rfl, fun _ h => h, fun _ ha => (h.table m hm).nodes.has _ ha, fun _ _ => .refl _, Iff.rfl⟩

theorem Reads.trans {m : Nat} {w₁ w₂ w₃ : World} (h1 : Reads m w₁ w₂) (h2 : Reads m w₂ w₃) :
    Reads m w₁ w₃ where
  made := h2.made.trans h1.made
  consts := h2.consts.trans h1.consts
  live a ha := h2.live a (h1.live a ha)
  has a ha := h2.has a (h1.live a ha)
  node a ha := (h1.node a ha).trans (h2.node a (h1.live a ha))
  fits := h2.fits.trans h1.fits

theorem Reads.keeps {m : Nat} {w w' : World} (h : Reads m w w') : Keeps (w.store m) (w'.store m) :=
  ⟨h.live, h.has, fun a ha => (h.node a ha).same⟩

/-- A step of thread `t` on manager `m` under the read guard. -/
structure Works (m t : Nat) (w w' : World) : Prop where
  inv : w'.Inv
  reads : Reads m w w'
  refs : ∀ a, (w'.heap.get a).refCnt = (w.heap.get a).refCnt
  lock : (w'.mgr m).rwLock = (w.mgr m).rwLock
  others : ∀ k, k ≠ m → w'.mgr k = w.mgr k
  foreign : ∀ k a, k ≠ m → w.made k = true → (w.store k).Live a → w'.heap.cell a = w.heap.cell a
  freeId : ∀ u, u ≠ t → w'.freeId u = w.freeId u
  frees : w'.heap.frees = w.heap.frees

theorem Works.refl {m t : Nat} {w : World} (h : w.Inv) (hm : w.made m = true) : Works m t w w :=
  ⟨h, .refl h hm, fun _ => rfl, rfl, fun _ _ => rfl, fun _ _ _ _ _ => rfl, fun _ _ => rfl, rfl⟩

theorem Works.live_other {m t k : Nat} {w w' : World} (h : Works m t w w') (hi : w.Inv) (hk : k ≠ m)
    (hm : w.made k = true) (a : Bdd) : (w'.store k).Live a ↔ (w.store k).Live a :=
  (hi.other hm (h.others k hk) fun b hb => recounted_of_cell ((hi.table k hm).nodes.has b hb)
    (h.foreign k b hk hm hb)).2.2 a

theorem Works.trans {m t : Nat} {w₁ w₂ w₃ : World} (hi : w₁.Inv) (h1 : Works m t w₁ w₂)
    (h2 : Works m t w₂ w₃) : Works m t w₁ w₃ where
  inv := h2.inv
  reads := h1.reads.trans h2.reads
  refs a := (h2.refs a).trans (h1.refs a)
  lock := h2.lock.trans h1.lock
  others k hk := (h2.others k hk).trans (h1.others k hk)
  foreign k a hk hm ha := (h2.foreign k a hk (by rw [h1.reads.made]; exact hm)
    ((h1.live_other hi hk hm a).mpr ha)).trans (h1.foreign k a hk hm ha)
  freeId u hu := (h2.freeId u hu).trans (h1.freeId u hu)
  frees := h2.frees.trans h1.frees

theorem Stands.reads {m : Nat} {w w' : World} {a : Bdd} {f : BoolFn} (h : w.Stands m a f)
    (hi : w.Inv) (hm : w.made m = true) (hr : Reads m w w') : w'.Stands m a f := by
  have := Consts.Stands.keep (hi.table m hm).nodes hr.keeps h
  unfold Stands
  rw [hr.consts]
  exact this

/-! ## make_node -/

/-- What `make_node` of thread `t` does to the world. -/
theorem Inv.makeNode {m t : Nat} {w : World} (hi : w.Inv) (hm : w.made m = true) {level : UInt64}
    {low high r : Bdd} {s : Store}
    (hmade : Store.Made t (Node.from' level low high).key (w.store m) r s) (hne : low ≠ high)
    (hlow : (w.store m).Live low) (hhigh : (w.store m).Live high)
    (hlv : level.toNat < (w.consts m).numVars)
    (hbl : ((w.consts m).graph w.heap).Below level.toNat low)
    (hbh : ((w.consts m).graph w.heap).Below level.toNat high) :
    Works m t w (w.put m s) := by
  have ht := hi.table m hm
  have hold : ∀ a, (w.store m).Live a → s.heap.Has a ∧ (w.heap.get a).Alike (s.heap.get a) :=
    fun a ha => ⟨hmade.inv.table.has (hmade.grows.live ha), (hmade.grows.node a ha).alike⟩
  have hlvl : ∀ a, (w.store m).Live a → (s.heap.get a).lvl = (w.heap.get a).lvl :=
    fun a ha => (hold a ha).2.same.lvl
  have hlive : ∀ a, s.Live a ↔ (w.store m).Live a ∨ a = r := fun a =>
    ⟨hmade.live a, fun h => h.elim hmade.grows.live fun h => h ▸ hmade.result⟩
  -- the nodes of `m`
  have hnodes : NodesOk (w.consts m) s.heap s.Live := by
    obtain ⟨hkl, hklow, hkhigh⟩ := Node.key_eq_iff (n := s.heap.get r).mp hmade.key
    have hsmall : level.toNat < 2 ^ 63 := by
      have := ht.nodes.numVars
      omega
    have hmark := not_marked_of_lt hsmall
    have hrl : (s.heap.get r).lvl = level.toNat := by
      unfold Node.lvl
      rw [hkl]
      exact congrArg UInt64.toNat (unmark_of_not_marked hmark)
    have hbelow : ∀ c, (w.store m).Live c → ((w.consts m).graph w.heap).Below level.toNat c →
        ((w.consts m).graph s.heap).Below (s.heap.get r).lvl c := by
      refine fun c hc hb => hb.imp_right (Or.imp_right fun h => ?_)
      show (s.heap.get r).lvl < (s.heap.get c).lvl
      rw [hrl, hlvl c hc]
      exact h
    refine (ht.nodes.congr hold).add (hmade.inv.table.has hmade.result) hlive ?_ ?_ ?_ ?_ ?_ ?_ ?_
    · show ¬ (s.heap.get r).level &&& MARK ≠ 0
      rw [hkl]
      exact not_not_intro hmark
    · rw [hklow]
      exact hlow
    · rw [hkhigh]
      exact hhigh
    · rw [hklow, hkhigh]
      exact hne
    · rw [hrl]
      exact hlv
    · rw [hklow]
      exact hbelow low hlow hbl
    · rw [hkhigh]
      exact hbelow high hhigh hbh
  have htable : TableOk (w.consts m) s :=
    ⟨hmade.inv, hmade.owed, by rw [hmade.grows.len, hmade.grows.sizeExp]; exact ht.len, hnodes⟩
  have hcaches : CachesOk (w.mgr m) s := (hi.caches m hm).keep ht.nodes
    ⟨fun a => hmade.grows.live, fun a ha => (hold a ha).1, fun a ha => (hold a ha).2.same⟩
  -- the other managers
  have hcell : ∀ k, k ≠ m → w.made k = true → ∀ a, (w.store k).Live a →
      s.heap.cell a = w.heap.cell a := by
    intro k hk hmk a ha
    refine hmade.cell a ((hi.table k hmk).nodes.has a ha) (hi.disjoint k m a hmk hm hk ha) ?_
    rintro rfl
    exact (hi.scratch t ((hi.table k hmk).nodes.has _ ha).ne_zero).2.2 k hmk ha
  have hother : ∀ k, k ≠ m → w.made k = true →
      TableOk ((w.put m s).consts k) ((w.put m s).store k) ∧
      CachesOk ((w.put m s).mgr k) ((w.put m s).store k) ∧
      ∀ a, ((w.put m s).store k).Live a ↔ (w.store k).Live a := fun k hk hmk =>
    hi.other hmk (put_mgr_of_ne w m s hk) fun a ha =>
      recounted_of_cell ((hi.table k hmk).nodes.has a ha) (hcell k hk hmk a ha)
  have hr : ∀ k, k ≠ m → w.made k = true → ¬ (w.store k).Live r := by
    intro k hk hmk hl
    have hh := (hi.table k hmk).nodes.has r hl
    rcases hmade.origin with h | h | h
    · exact hi.disjoint k m r hmk hm hk hl h
    · have h : r = w.freeId t := h
      rw [h] at hl hh
      exact (hi.scratch t hh.ne_zero).2.2 k hmk hl
    · exact h hh
  -- scratch nodes stay apart
  have hrs : ∀ u, u ≠ t → w.freeId u ≠ 0 → w.freeId u ≠ r := by
    intro u hu h0 he
    obtain ⟨h1, -, h2⟩ := hi.scratch u h0
    rcases hmade.origin with h | h | h
    · exact h2 m hm (he ▸ h)
    · exact hu (hi.distinct u t h0 (he.trans h))
    · exact h (he ▸ h1)
  have hnext : ∀ u, u ≠ t → w.freeId u ≠ 0 → s.freeId t ≠ w.freeId u := by
    intro u hu h0 he
    rcases hmade.next with h | h
    · exact hu (hi.distinct u t h0 (he.symm.trans h))
    · exact h (he ▸ (hi.scratch u h0).1)
  have hst := put_store w m s
  have hinv : (w.put m s).Inv := by
    refine ⟨fun k hk => ?_, fun k hk => ?_, fun k k' a hk hk' hne ha hb => ?_, fun u hu => ?_,
      fun u v hu huv => ?_, fun a ha => ?_⟩
    · by_cases hkm : k = m
      · subst hkm
        rw [hst, put_consts]
        exact htable
      · exact (hother k hkm hk).1
    · by_cases hkm : k = m
      · subst hkm
        rw [hst, put_mgr]
        exact ⟨hcaches.notQuiet, hcaches.notLen, hcaches.notSound, hcaches.quiet, hcaches.len,
          hcaches.sound⟩
      · exact (hother k hkm hk).2.1
    · by_cases hkm : k = m
      · subst hkm
        rw [hst, hlive] at ha
        have hb' := ((hother k' (Ne.symm hne) hk').2.2 a).mp hb
        rcases ha with ha | rfl
        · exact hi.disjoint k k' a hk hk' hne ha hb'
        · exact hr k' (Ne.symm hne) hk' hb'
      · have ha' := ((hother k hkm hk).2.2 a).mp ha
        by_cases hkm' : k' = m
        · subst hkm'
          rw [hst, hlive] at hb
          rcases hb with hb | rfl
          · exact hi.disjoint k k' a hk hk' hne ha' hb
          · exact hr k hkm hk ha'
        · exact hi.disjoint k k' a hk hk' hne ha' (((hother k' hkm' hk').2.2 a).mp hb)
    · by_cases hut : u = t
      · subst hut
        obtain ⟨h1, h2, h3⟩ := hmade.scratch hu
        refine ⟨h1, h2, fun k hk hl => ?_⟩
        by_cases hkm : k = m
        · subst hkm
          rw [hst] at hl
          exact h3 hl
        · have hl' := ((hother k hkm hk).2.2 _).mp hl
          have hh := (hi.table k hk).nodes.has _ hl'
          rcases hmade.next with h | h
          · have h : s.freeId u = w.freeId u := h
            rw [put_freeId, h] at hl' hh
            exact (hi.scratch u hh.ne_zero).2.2 k hk hl'
          · exact h hh
      · have he : s.freeId u = w.freeId u := hmade.others u hut
        have hu' : w.freeId u ≠ 0 := he ▸ hu
        obtain ⟨h1, h2, h3⟩ := hi.scratch u hu'
        show s.heap.Has (s.freeId u) ∧ (s.heap.get (s.freeId u)).refCnt = 0 ∧ _
        rw [he, hmade.refs]
        refine ⟨hmade.has _ h1, h2, fun k hk hl => ?_⟩
        by_cases hkm : k = m
        · subst hkm
          rw [hst, put_freeId, he, hlive] at hl
          exact hl.elim (h3 k hk) (hrs u hut hu')
        · rw [put_freeId, he] at hl
          exact h3 k hk (((hother k hkm hk).2.2 _).mp hl)
    · have huv' : s.freeId u = s.freeId v := huv
      have hu' : s.freeId u ≠ 0 := hu
      by_cases hut : u = t
      · by_cases hvt : v = t
        · rw [hut, hvt]
        · have hv : s.freeId v = w.freeId v := hmade.others v hvt
          exact absurd ((hut ▸ huv').trans hv) (hnext v hvt (by rw [← hv, ← huv']; exact hu'))
      · have hue : s.freeId u = w.freeId u := hmade.others u hut
        by_cases hvt : v = t
        · exact absurd ((hvt ▸ huv').symm.trans hue) (hnext u hut (by rw [← hue]; exact hu'))
        · have hv : s.freeId v = w.freeId v := hmade.others v hvt
          exact hi.distinct u v (hue ▸ hu') (hue.symm.trans (huv'.trans hv))
    · have ha' : (w.heap.get a).refCnt ≠ 0 := fun h => ha ((hmade.refs a).trans h)
      obtain ⟨k, hk, hl⟩ := hi.counted a ha'
      refine ⟨k, hk, ?_⟩
      by_cases hkm : k = m
      · subst hkm
        rw [hst]
        exact hmade.grows.live hl
      · exact ((hother k hkm hk).2.2 a).mpr hl
  refine ⟨hinv, ⟨rfl, put_consts w m s m, fun a ha => ?_, fun a ha => (hold a ha).1,
    fun a ha => (hold a ha).2, ?_⟩, hmade.refs, ?_, fun k hk => put_mgr_of_ne w m s hk,
    fun k a hk hmk ha => hcell k hk hmk a ha, hmade.others, hmade.frees⟩
  · rw [hst]
    exact hmade.grows.live ha
  · have hsz : s.Sized ↔ (w.store m).Sized := by
      unfold Store.Sized
      rw [hmade.grows.len, hmade.grows.sizeExp]
    constructor
    · rintro ⟨h1, h2, h3⟩
      rw [hst] at h1
      rw [put_mgr] at h2 h3
      exact ⟨hsz.mp h1, h2, h3⟩
    · rintro ⟨h1, h2, h3⟩
      refine ⟨by rw [hst]; exact hsz.mpr h1, ?_, ?_⟩
      · rw [put_mgr]
        exact h2
      · rw [put_mgr]
        exact h3
  · rw [put_mgr]

end World

namespace Manager

open World

/-! ## The logic of a thread under a read guard -/

/-- Thread `t` holds a read guard of manager `m`.  It may run out of rounds only if `tol`,
and panic only if some array is too short. -/
def reading (m t : Nat) (tol : Prop) : Logic ops World where
  exec := exec m t
  rely w w' := w.Inv → w.made m = true → w'.Inv ∧ Reads m w w'
  guar w w' := w.Inv → w.made m = true → Works m t w w'
  safe o _ := ¬ o.Cleans
  stops e w := e = .spin ∧ tol ∨ e = .panic ∧ ¬ w.Fits m
  fits _ := True

/-- The invariant holds, and `g` are the constants of manager `m`. -/
structure Now (g : Consts) (m : Nat) (w : World) : Prop where
  inv : w.Inv
  made : w.made m = true
  consts : w.consts m = g

section
variable {g : Consts} {m t : Nat} {tol : Prop} {α : Type} {w w' : World} {a : Bdd} {f f' : BoolFn}

theorem Now.table (h : Now g m w) : TableOk g (w.store m) := h.consts ▸ h.inv.table m h.made

theorem Now.reads (h : Now g m w) (hi : w'.Inv) (hr : Reads m w w') : Now g m w' :=
  ⟨hi, by rw [hr.made]; exact h.made, hr.consts.trans h.consts⟩

theorem Now.stands (h : Now g m w) (hr : Reads m w w') (hs : w.Stands m a f) : w'.Stands m a f :=
  hs.reads h.inv h.made hr

theorem Now.stands_iff (h : Now g m w) : w.Stands m a f ↔ g.Stands (w.store m) a f := by
  unfold World.Stands
  rw [h.consts]

theorem wp_spinLoop {Q : α → World → Prop} (h : tol) :
    wp (reading m t tol) (spinLoop : Prog ops α) Q w :=
  fun _ _ => Logic.Does.of_error id rfl (Or.inl ⟨rfl, h⟩)

/-- One step. -/
theorem wp_step {o : Op} {k : ops.Res o → Prog ops α} {Q : α → World → Prop} (hn : Now g m w)
    (hsafe : ¬ o.Cleans) (h : ∀ w', Now g m w' → Reads m w w' →
      (∃ r w'', exec m t o w' = .ok (r, w'') ∧ Works m t w' w'' ∧
        wp (reading m t tol) (k r) Q w'') ∨
      (exec m t o w' = .error .panic ∧ ¬ w'.Fits m)) :
    wp (reading m t tol) (step o >>= k) Q w := by
  intro w' hr
  obtain ⟨hi, hr⟩ := hr hn.inv hn.made
  rcases h w' (hn.reads hi hr) hr with ⟨r, w'', he, hw, hq⟩ | ⟨he, hf⟩
  · exact Logic.Does.of_ok hsafe he fun _ => ⟨fun _ _ => hw, hq⟩
  · exact Logic.Does.of_error hsafe he (Or.inr ⟨rfl, hf⟩)

/-- An access that reads what never changes. -/
theorem wp_look {o : Access} {k : mem.Res o → Prog ops α} {Q : α → World → Prop} (v : mem.Res o)
    (hn : Now g m w)
    (hex : ∀ w', Reads m w w' → Store.exec t o (w'.store m) = .ok (v, w'.store m))
    (h : ∀ w', Now g m w' → Reads m w w' → wp (reading m t tol) (k v) Q w') :
    wp (reading m t tol) (step (.acc o) >>= k) Q w := by
  refine wp_step hn id fun w' hn' hr => Or.inl ⟨v, w', ?_, .refl hn'.inv hn'.made, h w' hn' hr⟩
  simp only [exec, hex w' hr, put_self]

theorem exec_same {β : Type} {fld : Node → β} (hfld : ∀ n n' : Node, n.Alike n' → fld n' = fld n)
    (ha : (w.store m).Live a) (hr : Reads m w w') :
    (w'.store m).look a fld = .ok (fld (w.heap.get a), w'.store m) :=
  Store.exec_field (hr.has a ha) (hfld _ _ (hr.node a ha))

theorem wp_level {k : UInt64 → Prog ops α} {Q : α → World → Prop} (hn : Now g m w)
    (ha : (w.store m).Live a)
    (h : ∀ w', Now g m w' → Reads m w w' →
      wp (reading m t tol) (k (w.heap.get a).level) Q w') :
    wp (reading m t tol) (step (.acc (.level a)) >>= k) Q w :=
  wp_look (o := .level a) (w.heap.get a).level hn
    (fun _ hr => exec_same (fun _ _ h => h.level) ha hr) h

theorem wp_low {k : Bdd → Prog ops α} {Q : α → World → Prop} (hn : Now g m w)
    (ha : (w.store m).Live a)
    (h : ∀ w', Now g m w' → Reads m w w' → wp (reading m t tol) (k (w.heap.get a).low) Q w') :
    wp (reading m t tol) (step (.acc (.low a)) >>= k) Q w :=
  wp_look (o := .low a) (w.heap.get a).low hn (fun _ hr => exec_same (fun _ _ h => h.low) ha hr) h

theorem wp_high {k : Bdd → Prog ops α} {Q : α → World → Prop} (hn : Now g m w)
    (ha : (w.store m).Live a)
    (h : ∀ w', Now g m w' → Reads m w w' → wp (reading m t tol) (k (w.heap.get a).high) Q w') :
    wp (reading m t tol) (step (.acc (.high a)) >>= k) Q w :=
  wp_look (o := .high a) (w.heap.get a).high hn
    (fun _ hr => exec_same (fun _ _ h => h.high) ha hr) h

/-! ### make_node -/

/-- A node whose function does not look at the variables up to `l` is below level `l`. -/
theorem Now.below (h : Now g m w) {l : Nat} (hs : w.Stands m a f) (hf : From (l + 1) f) :
    (g.graph w.heap).Below l a := by
  have ht := h.table
  rw [h.stands_iff] at hs
  rcases ht.nodes.cases hs.1 with h1 | h1 | h1
  · exact Or.inl h1
  · exact Or.inr (Or.inl h1)
  · exact Or.inr (Or.inr (ht.reduced.atLeast hs.1 hs.2 hf h1))

/-- **`make_node`**: the node that chooses between two others by a variable above both. -/
theorem exec_makeNode {level : UInt64} {low high : Bdd} (hn : Now g m w)
    (hlow : w.Stands m low f) (hhigh : w.Stands m high f') (hf : From (level.toNat + 1) f)
    (hf' : From (level.toNat + 1) f') (hlv : level.toNat < g.numVars) :
    ∃ r w', exec m t (.makeNode level low high) w = .ok (r, w') ∧ Works m t w w' ∧
      w'.Stands m r (choose level.toNat f f') := by
  have ht := hn.table
  by_cases hne : low = high
  · subst hne
    obtain rfl : f = f' := ht.nodes.functional (hn.stands_iff.mp hlow).2 (hn.stands_iff.mp hhigh).2
    refine ⟨low, w, ?_, .refl hn.inv hn.made, ?_⟩
    · have hrun : ∀ n, run (Store.exec t) (Tobdd.makeNode level low low n) (w.store m) =
          .ok (low, w.store m) := fun n => by
        unfold Tobdd.makeNode
        rw [if_pos rfl]
        rfl
      simp only [exec, hrun, put_self]
    · rw [choose_self]
      exact hlow
  · have hsc : (w.store m).ScratchOk t := fun h0 => by
      obtain ⟨h1, h2, h3⟩ := hn.inv.scratch t h0
      exact ⟨h1, h2, h3 m hn.made⟩
    rcases Store.run_makeNode level ht.inv ht.owed hsc hne
        (n := w.heap.brk + 2) (Nat.lt_succ_self _) with ⟨r, s, hrun, hmade⟩ | ⟨-, hsz⟩
    swap
    · exact absurd ht.sized hsz
    have hworks := hn.inv.makeNode hn.made hmade hne hlow.1 hhigh.1
      (by rw [hn.consts]; exact hlv) (by rw [hn.consts]; exact hn.below hlow hf)
      (by rw [hn.consts]; exact hn.below hhigh hf')
    have hn' := hn.reads hworks.inv hworks.reads
    refine ⟨r, w.put m s, by simp only [exec, hrun], hworks, ?_⟩
    have hl2 := hn'.stands_iff.mp (hn.stands hworks.reads hlow)
    have hh2 := hn'.stands_iff.mp (hn.stands hworks.reads hhigh)
    rw [hn'.stands_iff]
    rw [put_store] at hl2 hh2 ⊢
    have ht2 : TableOk g s := by
      have := hn'.table
      rwa [put_store] at this
    obtain ⟨hkl, hklow, hkhigh⟩ := Node.key_eq_iff (n := s.heap.get r).mp hmade.key
    have hnode : (g.graph s.heap).node r := by
      rcases ht2.nodes.cases hmade.result with h1 | h1 | h1
      · exact absurd (hklow.symm.trans (ht2.nodes.terminal (Or.inl h1)).1)
          (ht2.nodes.has _ hl2.1).ne_zero
      · exact absurd (hklow.symm.trans (ht2.nodes.terminal (Or.inr h1)).1)
          (ht2.nodes.has _ hl2.1).ne_zero
      · exact h1
    have hrl : (s.heap.get r).lvl = level.toNat := by
      rw [ht2.nodes.lvl_eq hmade.result, hkl]
      rfl
    refine ⟨hmade.result, ?_⟩
    have hd : g.Denotes s.heap r (choose (s.heap.get r).lvl f f') := by
      refine Diagram.Denotes.node hnode ?_ ?_
      · show Diagram.Denotes _ (s.heap.get r).low f
        rw [hklow]
        exact hl2.2
      · show Diagram.Denotes _ (s.heap.get r).high f'
        rw [hkhigh]
        exact hh2.2
    rwa [hrl] at hd

theorem wp_makeNode {level : UInt64} {low high : Bdd} {k : Bdd → Prog ops α}
    {Q : α → World → Prop} (hn : Now g m w) (hlow : w.Stands m low f) (hhigh : w.Stands m high f')
    (hf : From (level.toNat + 1) f) (hf' : From (level.toNat + 1) f')
    (hlv : level.toNat < g.numVars)
    (h : ∀ r w', Now g m w' → Reads m w w' → w'.Stands m r (choose level.toNat f f') →
      wp (reading m t tol) (k r) Q w') :
    wp (reading m t tol) (step (.makeNode level low high) >>= k) Q w := by
  refine wp_step hn id fun w' hn' hr => ?_
  obtain ⟨r, w'', he, hw, hs⟩ := exec_makeNode (t := t) hn' (hn.stands hr hlow)
    (hn.stands hr hhigh) hf hf' hlv
  exact Or.inl ⟨r, w'', he, hw, h r w'' (hn'.reads hw.inv hw.reads) (hr.trans hw.reads) hs⟩

/-! ### The memo tables -/

/-- Writing into a memo table of the manager. -/
theorem Now.works (hn : Now g m w) {g' : Manager} (hset : g'.set = (w.mgr m).set)
    (hg : g'.toConsts = w.consts m) (hlock : g'.rwLock = (w.mgr m).rwLock)
    (hc : CachesOk g' (w.store m)) (hnot : g'.notCache.Sized ↔ (w.mgr m).notCache.Sized)
    (hcache : ∀ c, (g'.cache c).Sized ↔ ((w.mgr m).cache c).Sized) :
    Works m t w (w.setMgr m g') := by
  have hst := setMgr_store hset
  have ht := hn.inv.table m hn.made
  refine ⟨hn.inv.setMgr hset hg fun _ => hc, ⟨rfl, setMgr_consts hg m, fun a ha => ?_,
    fun a ha => ht.nodes.has a ha, fun a _ => .refl _, ?_⟩, fun _ => rfl, ?_,
    fun k hk => setMgr_mgr_of_ne w m g' hk, fun _ _ _ _ _ => rfl, fun _ _ => rfl, rfl⟩
  · rw [hst]
    exact ha
  · constructor
    · rintro ⟨h1, h2, h3⟩
      rw [hst] at h1
      rw [setMgr_mgr] at h2 h3
      exact ⟨h1, hnot.mp h2, fun c => (hcache c).mp (h3 c)⟩
    · rintro ⟨h1, h2, h3⟩
      refine ⟨by rw [hst]; exact h1, ?_, fun c => ?_⟩
      · rw [setMgr_mgr]
        exact hnot.mpr h2
      · rw [setMgr_mgr]
        exact (hcache c).mpr (h3 c)
  · rw [setMgr_mgr, hlock]

theorem sized_congr {K V : Type} {c d : LockFreeCache K V} (he : d.sizeExp = c.sizeExp)
    (hl : d.entries.len = c.entries.len) : d.Sized ↔ c.Sized := by
  unfold LockFreeCache.Sized
  rw [he, hl]

theorem wp_notGet {hash : UInt64} {k : Bdd → Prog ops α} {Q : α → World → Prop} (hn : Now g m w)
    (ha : w.Stands m a f)
    (h : ∀ v w', Now g m w' → Reads m w w' → (v = 0 ∨ w'.Stands m v fun x => !(f x)) →
      wp (reading m t tol) (k v) Q w') :
    wp (reading m t tol) (step (.notGet hash a) >>= k) Q w := by
  refine wp_step hn id fun w' hn' hr => ?_
  have hc := hn'.inv.caches m hn'.made
  have hne : a ≠ (default : Bdd) := (hn.table.nodes.has a ha.1).ne_zero
  rcases LockFreeCache.get_sound hc.notQuiet hc.notSound hash hne with ⟨v, hv, hcase⟩ | ⟨hv, hsz⟩
  · refine Or.inl ⟨v, w', ?_, .refl hn'.inv hn'.made, h v w' hn' hr (hcase.imp_right ?_)⟩
    · simp only [exec, hv]
    · rintro ⟨f', h1, h2⟩
      have ha' := (hn'.stands_iff.mp (hn.stands hr ha)).2
      rw [show (w'.mgr m).toConsts = g from hn'.consts] at h1 h2
      obtain rfl := hn'.table.nodes.functional h1.2 ha'
      exact hn'.stands_iff.mpr h2
  · refine Or.inr ⟨?_, fun hfit => hsz hfit.not⟩
    simp only [exec, hv]

theorem wp_notInsert {hash : UInt64} {v : Bdd} {k : Unit → Prog ops α} {Q : α → World → Prop}
    (hn : Now g m w) (ha : w.Stands m a f) (hv : w.Stands m v fun x => !(f x))
    (h : ∀ w', Now g m w' → Reads m w w' → wp (reading m t tol) (k ()) Q w') :
    wp (reading m t tol) (step (.notInsert hash a v) >>= k) Q w := by
  refine wp_step hn id fun w' hn' hr => ?_
  have hc := hn'.inv.caches m hn'.made
  rcases (w'.mgr m).notCache.insert_cases hash a v with ⟨b, d, hd, he, hl, hs, hw⟩ | ⟨hd, hsz⟩
  · have hworks : Works m t w' (w'.setMgr m { w'.mgr m with notCache := d }) := by
      refine hn'.works rfl rfl rfl ⟨fun i => (hs i).trans (hc.notQuiet i), ?_, fun i => ?_,
        hc.quiet, hc.len, hc.sound⟩ (sized_congr he hl) fun _ => Iff.rfl
      · rw [hl, he]
        exact hc.notLen
      · rcases hw i with h1 | ⟨h1, h2⟩
        · rw [h1]
          exact hc.notSound i
        · rw [h1, h2]
          exact Or.inr ⟨f, hn.stands hr ha, hn.stands hr hv⟩
    refine Or.inl ⟨(), _, ?_, hworks, h _ (hn'.reads hworks.inv hworks.reads)
      (hr.trans hworks.reads)⟩
    simp only [exec, hd, change]
    rfl
  · refine Or.inr ⟨?_, fun hfit => hsz hfit.not⟩
    simp only [exec, hd]

theorem wp_get {c : Memo} {op : Bool → Bool → Bool} (hop : c.op = some op) {hash : UInt64}
    {lhs rhs : Bdd} {k : Bdd → Prog ops α} {Q : α → World → Prop} (hn : Now g m w)
    (hl : w.Stands m lhs f) (hr : w.Stands m rhs f')
    (h : ∀ v w', Now g m w' → Reads m w w' → (v = 0 ∨ w'.Stands m v fun x => op (f x) (f' x)) →
      wp (reading m t tol) (k v) Q w') :
    wp (reading m t tol) (step (.get c hash (lhs, rhs)) >>= k) Q w := by
  refine wp_step hn id fun w' hn' hrd => ?_
  have hc := hn'.inv.caches m hn'.made
  have hne : (lhs, rhs) ≠ (default : Bdd × Bdd) := fun he =>
    (hn.table.nodes.has lhs hl.1).ne_zero (congrArg Prod.fst he)
  rcases LockFreeCache.get_sound (hc.quiet c) (hc.sound c) hash hne with
    ⟨v, hv, hcase⟩ | ⟨hv, hsz⟩
  · refine Or.inl ⟨v, w', ?_, .refl hn'.inv hn'.made, h v w' hn' hrd (hcase.imp_right ?_)⟩
    · simp only [exec, hv]
    · rintro ⟨op', hop', f₁, f₂, h1, h2, h3⟩
      have hl' := (hn'.stands_iff.mp (hn.stands hrd hl)).2
      have hr' := (hn'.stands_iff.mp (hn.stands hrd hr)).2
      obtain rfl : op = op' := Option.some.inj (hop.symm.trans hop')
      rw [show (w'.mgr m).toConsts = g from hn'.consts] at h1 h2 h3
      obtain rfl := hn'.table.nodes.functional h1.2 hl'
      obtain rfl := hn'.table.nodes.functional h2.2 hr'
      exact hn'.stands_iff.mpr h3
  · refine Or.inr ⟨?_, fun hfit => hsz (hfit.cache c)⟩
    simp only [exec, hv]

theorem wp_insert {c : Memo} {op : Bool → Bool → Bool} (hop : c.op = some op) {hash : UInt64}
    {lhs rhs v : Bdd} {k : Unit → Prog ops α} {Q : α → World → Prop} (hn : Now g m w)
    (hl : w.Stands m lhs f) (hr : w.Stands m rhs f') (hv : w.Stands m v fun x => op (f x) (f' x))
    (h : ∀ w', Now g m w' → Reads m w w' → wp (reading m t tol) (k ()) Q w') :
    wp (reading m t tol) (step (.insert c hash (lhs, rhs) v) >>= k) Q w := by
  refine wp_step hn id fun w' hn' hrd => ?_
  have hc := hn'.inv.caches m hn'.made
  rcases ((w'.mgr m).cache c).insert_cases hash (lhs, rhs) v with
    ⟨b, d, hd, he, hlen, hs, hw⟩ | ⟨hd, hsz⟩
  · -- a property of the memo tables, for the one that was written and for the others
    have hupd : ∀ P : Memo → LockFreeCache (Bdd × Bdd) Bdd → Prop, P c d →
        (∀ e, P e ((w'.mgr m).cache e)) → ∀ e, P e (Function.update (w'.mgr m).cache c d e) := by
      intro P hd hP e
      by_cases hec : e = c
      · subst hec
        rw [Function.update_self]
        exact hd
      · rw [Function.update_of_ne hec]
        exact hP e
    have hworks : Works m t w' (w'.setMgr m { w'.mgr m with
        cache := Function.update (w'.mgr m).cache c d }) := by
      refine hn'.works rfl rfl rfl ⟨hc.notQuiet, hc.notLen, hc.notSound,
        hupd (fun _ d => d.Quiet) (fun i => (hs i).trans (hc.quiet c i)) hc.quiet,
        hupd (fun _ d => d.entries.len = rangeI32 d.sizeExp) ?_ hc.len,
        hupd (fun e d => d.Sound ((w'.consts m).Entry (w'.store m) e)) (fun i => ?_) hc.sound⟩ Iff.rfl
        (hupd (fun e d => d.Sized ↔ ((w'.mgr m).cache e).Sized) (sized_congr he hlen)
          fun _ => Iff.rfl)
      · rw [hlen, he]
        exact hc.len c
      · rcases hw i with h1 | ⟨h1, h2⟩
        · rw [h1]
          exact hc.sound c i
        · rw [h1, h2]
          exact Or.inr ⟨op, hop, f, f', hn.stands hrd hl, hn.stands hrd hr, hn.stands hrd hv⟩
    refine Or.inl ⟨(), _, ?_, hworks, h _ (hn'.reads hworks.inv hworks.reads)
      (hrd.trans hworks.reads)⟩
    simp only [exec, hd, change]
    rfl
  · refine Or.inr ⟨?_, fun hfit => hsz (hfit.cache c)⟩
    simp only [exec, hd]

end

end Manager

end Tobdd
