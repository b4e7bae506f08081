import Tobdd.Drop
import Tobdd.Methods
import Tobdd.Sessions

/-!
# What is allocated

A node that is allocated has an owner: the table of a manager it is linked in, or the thread
whose scratch node it is (`World.Owned`).  A manager that goes takes its nodes with it, so
nothing is left behind but the scratch nodes.

    Step.owned: every call keeps that
    Life.no_leak: what is allocated in a process where managers come and go
    Life.ends: the end of a manager frees its nodes, each once, whatever was done before
-/

namespace Tobdd

open Resume Diagram

/-! ## What the code of the table allocates -/

/-- The accesses that leave alone which nodes there are. -/
def Access.Still : Access → Prop
  | .alloc _ | .free _ | .setFreeId _ => False
  | _ => True

theorem Access.Seeks.still {o : Access} (h : o.Seeks) : o.Still := by
  cases o with
  | alloc _ | free _ | setFreeId _ => exact h
  | _ => trivial

namespace Store

/-- The same nodes are allocated, and the same of them are scratch nodes. -/
structure SameCells (s s' : Store) : Prop where
  has : ∀ a, s'.heap.Has a ↔ s.heap.Has a
  freeId : s'.freeId = s.freeId

theorem SameCells.refl (s : Store) : SameCells s s := ⟨fun _ => Iff.rfl, rfl⟩

theorem SameCells.trans {s₁ s₂ s₃ : Store} (h1 : SameCells s₁ s₂) (h2 : SameCells s₂ s₃) :
    SameCells s₁ s₃ :=
  ⟨fun a => (h2.has a).trans (h1.has a), h2.freeId.trans h1.freeId⟩

variable {s s' : Store} {t n : Nat} {α : Type}

theorem sameCells_of_look {a : Bdd} {f : Node → α} {r : α} (h : s.look a f = .ok (r, s')) :
    SameCells s s' := by
  obtain ⟨-, rfl⟩ := look_ok h
  exact .refl _

theorem sameCells_of_edit {a : Bdd} {f : Node → Node} (h : s.edit a f = .ok ((), s')) :
    SameCells s s' := by
  rw [edit_ok h]
  exact ⟨fun b => Heap.modify_has, rfl⟩

theorem sameCells_put (s : Store) (b : Bdd) (q : Place) : SameCells s (s.put b q) :=
  ⟨fun _ => put_has .., put_freeId ..⟩

theorem exec_still {o : Access} {r : mem.Res o} (ho : o.Still)
    (h : Store.exec t o s = .ok (r, s')) : SameCells s s' := by
  cases o with
  | load q =>
    obtain ⟨-, -, rfl⟩ := load_ok h
    exact .refl _
  | store q b =>
    rw [store_ok h]
    exact sameCells_put s b q
  | cas q a b =>
    obtain ⟨-, ⟨-, -, rfl⟩ | ⟨-, -, rfl⟩⟩ := cas_ok h
    · exact ⟨(sameCells_put s b q).has, (sameCells_put s b q).freeId⟩
    · exact .refl _
  | key a | hash a | level a | low a | high a | refCnt a => exact sameCells_of_look h
  | fetchAdd a | fetchSub a | setLevel a _ | setLow a _ | setHigh a _ | rehash a | mark a | unmark a =>
    exact sameCells_of_edit h
  | alloc _ | free _ | setFreeId _ => exact ho.elim
  | panic | spinLoop => cases h
  | addEntry | setEntry _ | entryNum | numMarks | setMarks _ | sizeExp | setSizeExp _ | setBuckets _
  | freeId =>
    obtain ⟨-, rfl⟩ := Prod.mk.inj (Except.ok.inj h)
    exact ⟨fun _ => Iff.rfl, rfl⟩

theorem run_still {p : Prog mem α} (hp : p.Only Access.Still) {a : α}
    (h : run (Store.exec t) p s = .ok (a, s')) : SameCells s s' :=
  hp.run (R := SameCells) .refl (fun _ _ _ => .trans) (fun _ _ _ _ => exec_still) h

theorem has_alloc {h : Heap} {x : Node} {a : Bdd} (ha : (h.alloc x).Has a) :
    h.Has a ∨ a = h.fresh := by
  by_cases hf : a = h.fresh
  · exact Or.inr hf
  · refine Or.inl ?_
    unfold Heap.Has at ha ⊢
    rwa [Heap.alloc_cell_of_ne hf] at ha

/-- What `make_node` allocates is its result or the scratch node it leaves; the scratch node there
was is the one or the other. -/
theorem makeNode_cells {level : UInt64} {low high r : Bdd} (hne : low ≠ high)
    (h : run (Store.exec t) (makeNode level low high n) s = .ok (r, s')) :
    (∀ a, s'.heap.Has a → s.heap.Has a ∨ a = r ∨ a = s'.freeId t) ∧
      (s.freeId t ≠ 0 → s.freeId t = r ∨ s.freeId t = s'.freeId t) := by
  unfold makeNode at h
  rw [if_neg hne] at h
  -- the scratch node
  obtain ⟨p, s₁, h1, h⟩ := run_bind_inv h
  have hp : (∀ a, s₁.heap.Has a → s.heap.Has a ∨ a = p) ∧ s₁.freeId t = p ∧
      (s.freeId t ≠ 0 → s.freeId t = p) := by
    have hrun : run (Store.exec t) scratch s = _ := run_acc (o := .freeId) (r := s.freeId t) rfl
    rw [h1] at hrun
    by_cases h0 : s.freeId t = 0
    · rw [if_pos h0] at hrun
      obtain ⟨rfl, rfl⟩ := Prod.mk.inj (Except.ok.inj hrun)
      exact ⟨fun a ha => has_alloc ha, Function.update_self .., fun hn => absurd h0 hn⟩
    · rw [if_neg h0] at hrun
      obtain ⟨rfl, rfl⟩ := Prod.mk.inj (Except.ok.inj hrun)
      exact ⟨fun a ha => Or.inl ha, rfl, fun _ => rfl⟩
  obtain ⟨hhas, hown, hold⟩ := hp
  -- it is filled in and offered to the table
  obtain ⟨⟨⟩, s₂, h2, h⟩ := run_bind_inv h
  obtain ⟨⟨⟩, s₃, h3, h⟩ := run_bind_inv h
  obtain ⟨⟨⟩, s₄, h4, h⟩ := run_bind_inv h
  obtain ⟨⟨⟩, s₅, h5, h⟩ := run_bind_inv h
  obtain ⟨⟨present, inserted⟩, s₆, h6, h⟩ := run_bind_inv h
  have hstill : ∀ {o : Access}, o.Still → (acc o).Only Access.Still := fun ho => ⟨ho, fun _ => trivial⟩
  have hsame : SameCells s₁ s₆ := ((((run_still (hstill (o := .setLevel p level) trivial) h2).trans
    (run_still (hstill (o := .setLow p low) trivial) h3)).trans
    (run_still (hstill (o := .setHigh p high) trivial) h4)).trans
    (run_still (hstill (o := .rehash p) trivial) h5)).trans
    (run_still ((LockFreeSet.seeks_getOrInsert p n).mono fun _ ho => ho.still) h6)
  have hhas6 : ∀ a, s₆.heap.Has a → s.heap.Has a ∨ a = p := fun a ha => hhas a ((hsame.has a).mp ha)
  have hown6 : s₆.freeId t = p := by rw [hsame.freeId, hown]
  cases inserted with
  | true =>
    obtain ⟨rfl, rfl⟩ := Prod.mk.inj (Except.ok.inj h)
    refine ⟨fun a ha => ?_, fun h0 => Or.inl (hold h0)⟩
    rcases has_alloc ha with ha | ha
    · exact (hhas6 a ha).imp_right Or.inl
    · refine Or.inr (Or.inr ?_)
      show a = Function.update s₆.freeId t s₆.heap.fresh t
      rw [Function.update_self, ha]
  | false =>
    obtain ⟨rfl, rfl⟩ := Prod.mk.inj (Except.ok.inj h)
    refine ⟨fun a ha => (hhas6 a ha).imp_right fun ha => Or.inr ?_, fun h0 => Or.inr ?_⟩
    · rw [hown6, ha]
    · rw [hown6, hold h0]

end Store

/-- The access that allocates. -/
def Access.Allots : Access → Prop
  | .alloc _ => True
  | _ => False

theorem Access.Seeks.not_allots {o : Access} (h : o.Seeks) : ¬ o.Allots := by
  intro ha
  cases o with
  | alloc _ => exact h
  | _ => exact ha

namespace Store

variable {s s' : Store} {t n : Nat} {α : Type}

theorem exec_has {o : Access} {r : mem.Res o} (h : Store.exec t o s = .ok (r, s')) {a : Bdd}
    (ha : s'.heap.Has a) : s.heap.Has a ∨ o.Allots ∧ a = s.heap.fresh := by
  by_cases ho : o.Still
  · exact Or.inl (((exec_still ho h).has a).mp ha)
  cases o with
  | alloc x =>
    obtain ⟨-, rfl⟩ := Prod.mk.inj (Except.ok.inj h)
    exact (has_alloc ha).imp_right fun h => ⟨trivial, h⟩
  | free b =>
    rw [free_ok h] at ha
    refine Or.inl ?_
    have hba : a ≠ b := by
      rintro rfl
      obtain ⟨x, hx⟩ := ha
      rw [show (s.heap.free a).cell a = none from Heap.free_cell_self] at hx
      cases hx
    unfold Heap.Has at ha ⊢
    rwa [show (s.heap.free b).cell a = s.heap.cell a from Heap.free_cell_of_ne hba] at ha
  | setFreeId b =>
    obtain ⟨-, rfl⟩ := Prod.mk.inj (Except.ok.inj h)
    exact Or.inl ha
  | _ => exact absurd trivial ho

/-- A run that allocates `n` times at most has at most `n` new nodes. -/
theorem run_allots : ∀ (p : Prog mem α) {n : Nat} {s : Store} {a : α}, p.Few Access.Allots n →
    run (Store.exec t) p s = .ok (a, s') →
      ∃ l : List Bdd, l.length ≤ n ∧ ∀ b, s'.heap.Has b → s.heap.Has b ∨ b ∈ l := by
  intro p
  induction p with
  | ret a =>
    intro n s b _ h
    obtain ⟨-, rfl⟩ := Prod.mk.inj (Except.ok.inj h)
    exact ⟨[], Nat.zero_le n, fun _ => Or.inl⟩
  | step o k ih =>
    intro n s b hf h
    obtain ⟨r, s₁, he, h⟩ := run_step_inv h
    rcases hf with ⟨ho, hk⟩ | ⟨m, rfl, hk⟩
    · obtain ⟨l, hl, hnew⟩ := ih r (hk r) h
      refine ⟨l, hl, fun c hc => (hnew c hc).imp_left fun hc => ?_⟩
      exact (exec_has he hc).resolve_right fun h => ho h.1
    · obtain ⟨l, hl, hnew⟩ := ih r (hk r) h
      refine ⟨s.heap.fresh :: l, by simpa using hl, fun c hc => ?_⟩
      rcases hnew c hc with hc | hc
      · refine (exec_has he hc).imp_right fun h => ?_
        rw [h.2]
        exact List.mem_cons_self
      · exact Or.inr (List.mem_cons_of_mem _ hc)

end Store

/-! ## What has an owner -/

namespace World

/-- Every node that is allocated is in a table or is a scratch node. -/
def Owned (w : World) : Prop := ∀ a, w.heap.Has a →
  (∃ m, w.made m = true ∧ (w.store m).Live a) ∨ ∃ t, a = w.freeId t

/-- Nothing is allocated, freed, linked or unlinked. -/
structure Quiet (w w' : World) : Prop where
  made : w'.made = w.made
  buckets : ∀ k, (w'.mgr k).set.buckets = (w.mgr k).set.buckets
  has : ∀ a, w'.heap.Has a ↔ w.heap.Has a
  next : ∀ a, (w'.heap.get a).next = (w.heap.get a).next
  brk : w'.heap.brk = w.heap.brk
  freeId : w'.freeId = w.freeId

theorem Quiet.refl (w : World) : Quiet w w :=
  ⟨rfl, fun _ => rfl, fun _ => Iff.rfl, fun _ => rfl, rfl, rfl⟩

theorem Quiet.trans {w₁ w₂ w₃ : World} (h1 : Quiet w₁ w₂) (h2 : Quiet w₂ w₃) : Quiet w₁ w₃ :=
  ⟨h2.made.trans h1.made, fun k => (h2.buckets k).trans (h1.buckets k),
    fun a => (h2.has a).trans (h1.has a), fun a => (h2.next a).trans (h1.next a),
    h2.brk.trans h1.brk, h2.freeId.trans h1.freeId⟩

variable {w w' : World} {m k t n : Nat}

theorem Quiet.live (h : Quiet w w') (k : Nat) : (w'.store k).Live = (w.store k).Live := by
  have hld : ldIn (w'.mgr k).set.buckets w'.heap = ldIn (w.mgr k).set.buckets w.heap := by
    funext q
    cases q with
    | head i => exact congrArg (Slice.get · i) (h.buckets k)
    | next a => exact h.next a
  have hchain : (w'.store k).chain = (w.store k).chain := by
    funext i
    show Linked.follow _ (ldIn (w'.mgr k).set.buckets w'.heap) 0 w'.heap.brk _ = _
    rw [hld, h.brk]
    rfl
  funext a
  unfold Store.Live
  rw [hchain, show (w'.store k).set.buckets = (w.store k).set.buckets from h.buckets k]

theorem Quiet.owned (h : Quiet w w') (ho : w.Owned) : w'.Owned := by
  intro a ha
  rw [h.freeId]
  refine (ho a ((h.has a).mp ha)).imp_left ?_
  rintro ⟨k, hk, hl⟩
  refine ⟨k, ?_, ?_⟩
  · rw [h.made, hk]
  · rw [h.live k]
    exact hl

theorem quiet_put {s : Store} (hset : s.set = (w.mgr m).set) (hhas : ∀ a, s.heap.Has a ↔ w.heap.Has a)
    (hnext : ∀ a, (s.heap.get a).next = (w.heap.get a).next) (hbrk : s.heap.brk = w.heap.brk)
    (hfree : s.freeId = w.freeId) : Quiet w (w.put m s) := by
  refine ⟨rfl, fun k => ?_, hhas, hnext, hbrk, hfree⟩
  by_cases hk : k = m
  · subst hk
    rw [put_mgr, hset]
  · rw [put_mgr_of_ne _ _ _ hk]

theorem quiet_setMgr {g : Manager} (hset : g.set = (w.mgr m).set) : Quiet w (w.setMgr m g) := by
  refine ⟨rfl, fun k => ?_, fun _ => Iff.rfl, fun _ => rfl, rfl, rfl⟩
  by_cases hk : k = m
  · subst hk
    rw [setMgr_mgr, hset]
  · rw [setMgr_mgr_of_ne _ _ _ hk]

end World

namespace Manager

open World

/-- The steps that leave the nodes and the chains alone. -/
def Op.Quiet : Op → Prop
  | .acc (.low _) | .acc (.high _) | .acc (.level _) | .acc (.fetchAdd _) | .acc (.fetchSub _)
  | .notGet _ _ | .notInsert _ _ _ | .get _ _ _ | .insert _ _ _ _ | .read | .dropRead
  | .spinLoop => True
  | _ => False

variable {w w' : World} {m t n : Nat}

theorem quiet_look {α : Type} {a : Bdd} {f : Node → α} {r : α} {s : Store}
    (h : (w.store m).look a f = .ok (r, s)) : Quiet w (w.put m s) := by
  obtain ⟨-, rfl⟩ := Store.look_ok h
  rw [put_self]
  exact .refl w

theorem quiet_recount {a : Bdd} {f : UInt64 → UInt64} {s : Store}
    (h : (w.store m).edit a (fun n => { n with refCnt := f n.refCnt }) = .ok ((), s)) :
    Quiet w (w.put m s) := by
  rw [Store.edit_ok h]
  refine quiet_put rfl (fun b => Heap.modify_has) (fun b => ?_) rfl rfl
  by_cases hb : b = a
  · subst hb
    show ((w.heap.modify b _).get b).next = _
    unfold Heap.get
    rw [Heap.modify_cell_self]
    cases w.heap.cell b <;> rfl
  · show ((w.heap.modify a _).get b).next = _
    rw [Heap.modify_get_of_ne hb]

theorem exec_quiet {o : Op} {r : ops.Res o} (ho : o.Quiet) (h : exec m t o w = .ok (r, w')) :
    Quiet w w' := by
  cases o with
  | acc o =>
    simp only [exec] at h
    split at h
    · next r' s hs =>
      obtain ⟨-, rfl⟩ := Prod.mk.inj (Except.ok.inj h)
      cases o with
      | low a | high a | level a => exact quiet_look hs
      | fetchAdd a => exact quiet_recount (f := (· + 1)) hs
      | fetchSub a => exact quiet_recount (f := (· - 1)) hs
      | _ => exact ho.elim
    · cases h
  | notGet hash a =>
    simp only [exec] at h
    split at h
    · obtain ⟨-, rfl⟩ := Prod.mk.inj (Except.ok.inj h)
      exact .refl w
    · cases h
  | get c hash p =>
    simp only [exec] at h
    split at h
    · obtain ⟨-, rfl⟩ := Prod.mk.inj (Except.ok.inj h)
      exact .refl w
    · cases h
  | notInsert hash a b =>
    simp only [exec] at h
    split at h
    · obtain ⟨-, rfl⟩ := Prod.mk.inj (Except.ok.inj h)
      exact quiet_setMgr rfl
    · cases h
  | insert c hash p b =>
    simp only [exec] at h
    split at h
    · obtain ⟨-, rfl⟩ := Prod.mk.inj (Except.ok.inj h)
      exact quiet_setMgr rfl
    · cases h
  | read =>
    by_cases hw : (w.mgr m).rwLock.writer = none
    · have he : exec m t .read w = change w m { w.mgr m with
          rwLock := { (w.mgr m).rwLock with readers := t :: (w.mgr m).rwLock.readers } } := if_pos hw
      obtain ⟨-, rfl⟩ := Prod.mk.inj (Except.ok.inj (he.symm.trans h))
      exact quiet_setMgr rfl
    · have he : exec m t .read w = .error .spin := if_neg hw
      cases he.symm.trans h
  | dropRead =>
    obtain ⟨-, rfl⟩ := Prod.mk.inj (Except.ok.inj h)
    exact quiet_setMgr rfl
  | spinLoop => cases h
  | clean _ | makeNode _ _ _ | notInvalidate | notGrow | invalidate _ | grow _ | tryPending
  | awaitReaders | dropWrite => exact ho.elim

/-- `make_node` keeps every node owned. -/
theorem exec_makeNode_owned (hi : w.Inv) (hm : w.made m = true) {level : UInt64} {low high r : Bdd}
    (he : exec m t (.makeNode level low high) w = .ok (r, w')) (ho : w.Owned) : w'.Owned := by
  by_cases hne : low = high
  · subst hne
    rw [exec_makeNode_same] at he
    obtain ⟨-, rfl⟩ := Prod.mk.inj (Except.ok.inj he)
    exact ho
  have ht := hi.table m hm
  have hsc : (w.store m).ScratchOk t := fun h0 => by
    obtain ⟨h1, h2, h3⟩ := hi.scratch t h0
    exact ⟨h1, h2, h3 m hm⟩
  rcases Store.run_makeNode level ht.inv ht.owed hsc hne (n := w.heap.brk + 2)
    (Nat.lt_succ_self _) with ⟨r', s, hrun, hmade⟩ | ⟨-, hsz⟩
  swap
  · exact absurd ht.sized hsz
  have hw : exec m t (.makeNode level low high) w = .ok (r', w.put m s) := by
    simp only [exec, hrun]
  obtain ⟨rfl, rfl⟩ := Prod.mk.inj (Except.ok.inj (hw.symm.trans he))
  obtain ⟨hnew, hold⟩ := Store.makeNode_cells hne hrun
  have hlive : ∀ k a, w.made k = true → (w.store k).Live a → ((w.put m s).store k).Live a := by
    intro k a hk ha
    by_cases hkm : k = m
    · subst hkm
      rw [put_store]
      exact hmade.grows.live ha
    · refine ((hi.other hk (put_mgr_of_ne _ _ _ hkm) fun b hb => ?_).2.2 a).mpr ha
      -- a node of another table is neither linked here nor a scratch node
      have hhas := (hi.table k hk).nodes.has b hb
      refine recounted_of_cell hhas (hmade.cell b hhas (hi.disjoint k m b hk hm hkm hb) ?_)
      rintro rfl
      exact (hi.scratch t hhas.ne_zero).2.2 k hk hb
  have hresult : (∃ k, (w.put m s).made k = true ∧ ((w.put m s).store k).Live r') :=
    ⟨m, hm, by rw [put_store]; exact hmade.result⟩
  intro a ha
  rcases hnew a ha with ha | rfl | ha
  · rcases ho a ha with ⟨k, hk, hl⟩ | ⟨u, rfl⟩
    · exact Or.inl ⟨k, hk, hlive k a hk hl⟩
    · by_cases hut : u = t
      · subst hut
        rcases hold ha.ne_zero with h | h
        · have hr : w.freeId u = r' := h
          rw [hr]
          exact Or.inl hresult
        · exact Or.inr ⟨u, h⟩
      · exact Or.inr ⟨u, (hmade.others u hut).symm⟩
  · exact Or.inl hresult
  · exact Or.inr ⟨t, ha⟩

/-- Cleaning up keeps every node owned. -/
theorem cleaned_owned {d : Nat} (hi : w.Inv) (hm : w.made m = true) (hc : Cleaned d m w w')
    (ho : w.Owned) : w'.Owned := by
  intro a ha
  obtain ⟨ha, hl⟩ := (hc.tidied.has a).mp ha
  rcases ho a ha with ⟨k, hk, hk'⟩ | ⟨t, ht⟩
  · refine Or.inl ⟨k, by rw [hc.made, hk], ?_⟩
    by_cases hkm : k = m
    · subst hkm
      exact hl hk'
    · refine ((hi.other hk (hc.others k hkm) fun b hb => ?_).2.2 a).mpr hk'
      have hn : ¬ (w.store m).Live b := hi.disjoint k m b hk hm hkm hb
      exact ⟨(hc.aside.has b hn).mpr ((hi.table k hk).nodes.has b hb), hc.aside.node b hn⟩
  · exact Or.inr ⟨t, ht.trans (congrFun hc.aside.freeId t).symm⟩

/-- A run that only takes quiet steps. -/
theorem run_quiet {α : Type} {p : Prog ops α} (hp : p.Only Op.Quiet) {a : α}
    (h : run (exec m t) p w = .ok (a, w')) : Quiet w w' :=
  hp.run (R := World.Quiet) .refl (fun _ _ _ => .trans) (fun _ _ _ _ => exec_quiet) h

/-- The recursions keep every node owned. -/
theorem run_recur_owned {F : BoolFn} {c : Call} {r : Bdd} (hn : Now (w.consts m) m w)
    (hc : c.Spec (w.Stands m) F) (h : run (exec m t) (c.recur (w.consts m) n) w = .ok (r, w'))
    (ho : w.Owned) : w'.Owned := by
  have hstep : ∀ o w r w', o.Recurs → exec m t o w = .ok (r, w') →
      (w.Inv → w.made m = true → Works m t w w') → w.Inv → w.made m = true → w.Owned → w'.Owned := by
    intro o w r w' hr he _ hi hm ho
    cases o with
    | makeNode level low high => exact exec_makeNode_owned hi hm he ho
    | acc o =>
      refine (exec_quiet ?_ he).owned ho
      cases o with
      | low _ | high _ | level _ => trivial
      | _ => exact hr.elim
    | notGet _ _ | notInsert _ _ _ | get _ _ _ | insert _ _ _ _ | spinLoop =>
      refine (exec_quiet ?_ he).owned ho
      trivial
    | _ => exact hr.elim
  have hwp := wp_also hstep (recurs_recur (w.consts m) n c) (wp_rec (t := t) (n := n) hn hc (Or.inl trivial))
  have halone := wp_weaken
    (L := { reading m t True with guar := fun w w' => (reading m t True).guar w w' ∧
      (w.Inv → w.made m = true → w.Owned → w'.Owned) })
    (M := Logic.alone (exec m t)
      (fun w w' => w.Inv → w.made m = true → Works m t w w' ∧ (w.Owned → w'.Owned)) fun _ _ => True)
    rfl (fun w w' (he : w = w') => he ▸ fun hi hm => ⟨hi, Reads.refl hi hm⟩)
    (fun w w' hg hi hm => ⟨hg.1 hi hm, hg.2 hi hm⟩) (fun _ _ _ => trivial) (fun _ _ _ => trivial)
    (fun _ _ => trivial) hwp
  have hrun := wp_run (fun w hi hm => ⟨Works.refl hi hm, fun h => h⟩) (fun w₁ w₂ w₃ h1 h2 hi hm => by
    obtain ⟨hw1, ho1⟩ := h1 hi hm
    obtain ⟨hw2, ho2⟩ := h2 hw1.inv (by rw [hw1.reads.made]; exact hm)
    exact ⟨hw1.trans hi hw2, fun h => ho2 (ho1 h)⟩) halone
  rcases hrun with ⟨r', w₁, hr, -, hg⟩ | ⟨e, w₁, hr, -, -⟩
  · obtain ⟨rfl, rfl⟩ := Prod.mk.inj (Except.ok.inj (hr.symm.trans h))
    exact (hg hn.inv hn.made).2 ho
  · cases hr.symm.trans h

/-- `not`, `and`, `or` and `comp` keep every node owned. -/
theorem run_call_owned {c : Call} {r : Bdd} (hi : w.Inv) (hm : w.made m = true) (hl : w.Idle m)
    (hu : ∀ w₂, run (exec m t) (enterOp n) w = .ok ((), w₂) → Usable m c w₂)
    (h : run (exec m t) (c.prog (w.consts m) n) w = .ok (r, w')) (ho : w.Owned) : w'.Owned := by
  rw [Call.prog_eq, operation_eq] at h
  obtain ⟨⟨⟩, w₂, he, h⟩ := run_bind_inv h
  rcases run_enterOp hi hm hl t n with ⟨w₁, w₂', he', hent⟩ | ⟨e, he', -⟩
  swap
  · cases he'.symm.trans he
  obtain ⟨-, rfl⟩ := Prod.mk.inj (Except.ok.inj (he'.symm.trans he))
  have hs := hent.shrinks
  have hcon := hs.consts
  have heq := hent.eq
  subst heq
  -- `enter_op`
  have ho₁ : w₁.Owned := by
    rcases hent.entering.cleaned with rfl | ⟨d, -, hc⟩
    · exact ho
    · exact cleaned_owned hi hm hc ho
  obtain ⟨htop, hbot, hargs⟩ := hu _ he
  simp only [withLock_store, withLock_consts] at htop hbot hargs
  have hi₁ : w₁.Inv := hs.inv (hcon ▸ htop) (hcon ▸ hbot)
  have hm₁ : w₁.made m = true := by rw [hs.made]; exact hm
  have hquiet : Quiet w₁ (w₁.withLock m ⟨[t], none⟩) := quiet_setMgr rfl
  -- the recursion
  obtain ⟨r', w₃, hr, h⟩ := run_bind_inv h
  have hn : Now (w.consts m) m (w₁.withLock m ⟨[t], none⟩) :=
    ⟨hi₁.withLock m _, hm₁, by rw [withLock_consts, hcon]⟩
  obtain ⟨F, hF⟩ := Call.exists_spec (S := (w₁.withLock m ⟨[t], none⟩).Stands m) (c := c) fun a ha => by
    have hla : (w₁.store m).Live a := hargs a ha
    rw [← withLock_store w₁ m ⟨[t], none⟩] at hla
    exact (hn.table.nodes.denotes hla).imp fun f hf => hn.stands_iff.mpr ⟨hla, hf⟩
  have hn' : Now ((w₁.withLock m ⟨[t], none⟩).consts m) m (w₁.withLock m ⟨[t], none⟩) :=
    ⟨hn.inv, hn.made, rfl⟩
  rw [show w.consts m = (w₁.withLock m ⟨[t], none⟩).consts m from hn.consts.symm] at hr
  have ho₃ := run_recur_owned hn' hF hr (hquiet.owned ho₁)
  -- the rest
  have hrest : (do
      refBdd r'
      let _ : Unit ← step .dropRead
      return r' : Prog ops Bdd).Only Op.Quiet := ⟨trivial, fun _ => ⟨trivial, fun _ => trivial⟩⟩
  exact (run_quiet hrest h).owned ho₃

/-! ### deserialize -/

section
variable {debug : Bool} {σ ε : Type} {R : IoRead σ ε} {content : σ → List UInt8} {g : Consts}

theorem quiet_derefAll (l : List Bdd) : (derefAll l).Only Op.Quiet := by
  induction l with
  | nil => trivial
  | cons a l ih =>
    have ha : (derefBdd a).Only Op.Quiet := ⟨trivial, fun _ => trivial⟩
    exact ha.bind fun _ => ih

/-- A quiet step of the manager, next to a reader. -/
def ReadOp.Quiet : ReadOp → Prop
  | .mgr o => o.Quiet
  | _ => False

/-- Quiet steps next to a reader. -/
theorem run_quietRead {α : Type} {p : Prog (readOps ε) α}
    (hp : p.Only ReadOp.Quiet) {y y' : World × σ} {a : α}
    (h : run (execRead R m t) p y = .ok (a, y')) : Quiet y.1 y'.1 := by
  refine hp.run (R := fun y y' : World × σ => Quiet y.1 y'.1) (fun y => .refl y.1)
    (fun _ _ _ h1 h2 => Quiet.trans h1 h2) (fun o y r y' ho he => ?_) h
  cases o with
  | mgr o =>
    simp only [execRead] at he
    split at he
    · next r' w' he' =>
      obtain ⟨-, rfl⟩ := Prod.mk.inj (Except.ok.inj he)
      exact exec_quiet ho he'
    · cases he
  | readExact k => exact ho.elim
  | panic => exact ho.elim

/-- The loop over the records keeps every node owned. -/
theorem wp_readNodes_owned (hR : Delivers R content) : ∀ n F w (map : IdMap) ret x, Now g m w →
    Means F m w map → Readable debug g.numVars F (body (content x)) → w.Owned →
    wp (decoding R m t True) (readNodes debug g n map ret) (fun _ y => y.1.Owned) (w, x) := by
  intro n
  induction n with
  | zero => exact fun F w map ret x _ _ _ _ => wp_readSpin trivial
  | succ n ih =>
    intro F w map ret x hn hm hread ho
    unfold readNodes
    by_cases hlen : 32 ≤ (content x).length
    · rw [body_cons hlen] at hread
      refine wp_readExact hR hlen fun x' hx' => ?_
      rw [← hx'] at hread
      obtain ⟨bl, bh, b, f, w₂, w', hbl, hbh, he, he', hx, -, -, hm', -⟩ :=
        exec_record (t := t) hn hm hread.1
      refine wp_debugAssert hread.1.1 (wp_getUnwrap hbl (wp_getUnwrap hbh
        (wp_mgrOp he (wp_mgrOp he' ?_))))
      have ho' := (exec_quiet (by trivial) he').owned (exec_makeNode_owned hn.inv hn.made he ho)
      exact ih _ w' _ b x' (hx.now hn) hm' hread.2 ho'
    · exact wp_readShort hR (Nat.lt_of_not_le hlen) fun e x' => ho

/-- `deserialize` keeps every node owned. -/
theorem run_deserialize_owned (hR : Delivers R content) (hn : Now g m w) (hl : w.Idle m) {x x' : σ}
    (hleg : Legible debug g.numVars (content x)) {r : Except ε Bdd}
    (h : run (execRead R m t) (deserialize debug g n) (w, x) = .ok (r, w', x')) (ho : w.Owned) :
    w'.Owned := by
  have hn₁ : Now g m (w.withLock m ⟨[t], none⟩) :=
    ⟨hn.inv.withLock m _, hn.made, by rw [withLock_consts, hn.consts]⟩
  have hq₁ : Quiet w (w.withLock m ⟨[t], none⟩) := quiet_setMgr rfl
  have hwp : wp (trying R m t) (deserialize debug g n) (fun _ y => y.1.Owned) (w, x) := by
    unfold deserialize
    refine wp_header hR hl hleg.header fun x₁ hx₁ => ?_
    have hread := hleg.readable
    rw [← hx₁] at hread
    show wp (trying R m t) (readNodes debug g n _ 0 >>= fun _ => _) _ (_, _)
    rw [word_take (by decide), word_take (by decide)]
    refine wp_seq (wp_trying (wp_readNodes_owned hR n _ _ _ 0 x₁ hn₁ (means_start hn₁ _ _) hread
      (hq₁.owned ho))) ?_
    rintro ⟨map, ret⟩ y₂ ho₂
    have hrest : (do
        (derefAll (map.entries.map Sigma.snd)).lift (besideReader ε)
        (refBdd ret).lift (besideReader ε)
        let _ : Unit ← (step .dropRead).lift (besideReader ε)
        return .ok ret : Prog (readOps ε) (Except ε Bdd)).Only ReadOp.Quiet := by
      have hlast : ((step .dropRead).lift (besideReader ε)).Only ReadOp.Quiet :=
        ⟨trivial, fun _ => trivial⟩
      have href : ((refBdd ret).lift (besideReader ε)).Only ReadOp.Quiet :=
        ⟨trivial, fun _ => trivial⟩
      exact ((quiet_derefAll _).lift fun o ho => ho).bind fun _ => href.bind fun _ =>
        hlast.bind fun _ => trivial
    refine wp_of_run ?_
    generalize hres : run (execRead R m t) _ y₂ = res
    cases res with
    | ok z => exact Or.inl ⟨z.1, z.2, rfl, (run_quietRead hrest hres).owned ho₂⟩
    | error e => exact Or.inr ⟨e, rfl, trivial⟩
  rcases wp_run (fun _ => trivial) (fun _ _ _ _ _ => trivial) hwp with
    ⟨_, y, hr, ho', -⟩ | ⟨_, _, hr, -, -⟩
  · obtain ⟨-, rfl⟩ := Prod.mk.inj (Except.ok.inj (hr.symm.trans h))
    exact ho'
  · cases hr.symm.trans h

end

/-! ### init -/

theorem unallotted_getOrInsert (p : Bdd) (n : Nat) :
    (LockFreeSet.getOrInsert p n).Only fun o => ¬ Access.Allots o :=
  (LockFreeSet.seeks_getOrInsert p n).mono fun _ ho => ho.not_allots

theorem unallotted_fetchAdd (p : Bdd) : (acc (.fetchAdd p)).Only fun o => ¬ Access.Allots o :=
  ⟨id, fun _ => trivial⟩

theorem few_addNode (node : Node) (n : Nat) : (addNode node n).Few Access.Allots 1 := by
  refine Or.inr ⟨0, rfl, fun ptr => ?_⟩
  have hrest := (unallotted_getOrInsert ptr n).bind fun _ => (unallotted_fetchAdd ptr).bind
    (f := fun _ => (return ptr : Prog mem Bdd)) fun _ => trivial
  exact hrest.few 0

theorem few_addVar (falseId trueId : Bdd) (n i : Nat) (vs : List Bdd × List Bdd) :
    (addVar falseId trueId n i vs).Few Access.Allots 2 := by
  refine Or.inr ⟨1, rfl, fun (v : Bdd) => Or.inr ⟨0, rfl, fun (nv : Bdd) => ?_⟩⟩
  have hrest := (unallotted_getOrInsert v n).bind fun _ => (unallotted_getOrInsert nv n).bind fun _ =>
    (unallotted_fetchAdd v).bind fun _ => (unallotted_fetchAdd nv).bind
      (f := fun _ => (return (vs.1 ++ [v], vs.2 ++ [nv]) : Prog mem (List Bdd × List Bdd)))
      fun _ => trivial
  exact hrest.few 0

theorem few_initNodes (varNum n : Nat) : (initNodes varNum n).Few Access.Allots (2 + 2 * varNum) := by
  have hrest : ∀ trueId falseId, (if 2 ^ 63 ≤ varNum * 8 then panic
      else do
        let vs ← Prog.forRange varNum (addVar falseId trueId n) ([], [])
        return ⟨varNum, trueId, falseId, vs.1, vs.2⟩ : Prog mem Consts).Few Access.Allots
          (varNum * 2 + 0) := by
    intro trueId falseId
    split
    · exact Or.inl ⟨id, fun r => r.elim⟩
    · have hloop := Prog.Few.forRange (n := varNum) (x := (([], []) : List Bdd × List Bdd))
        fun i vs => few_addVar falseId trueId n i vs
      exact Prog.Few.bind (m := 0)
        (f := fun vs => (return ⟨varNum, trueId, falseId, vs.1, vs.2⟩ : Prog mem Consts))
        (fun _ => trivial) hloop
  have h := Prog.Few.bind (fun trueId => Prog.Few.bind (hrest trueId) (few_addNode (Node.new 0) n))
    (few_addNode (Node.new 1) n)
  rwa [show 1 + (1 + (varNum * 2 + 0)) = 2 + 2 * varNum by omega] at h

/-- **A new manager**: its nodes, as many as were allocated, are all in its table. -/
theorem init_owned {tableSize cacheSize : UInt64} {varNum : Nat} (hi : w.Inv) (hm : w.made m = false)
    (h : init m t tableSize cacheSize varNum n w = .ok w') (ho : w.Owned) : w'.Owned := by
  rcases run_init hi hm t tableSize cacheSize varNum n with ⟨w₁, h1, hf⟩ | ⟨e, h1, -⟩
  swap
  · cases h1.symm.trans h
  obtain rfl := Except.ok.inj (h1.symm.trans h)
  -- what was there is owned as before
  have hold : ∀ a, w.heap.Has a → (∃ k, k ≠ m ∧ w₁.made k = true ∧ (w₁.store k).Live a) ∨
      ∃ u, a = w₁.freeId u := by
    intro a ha
    rcases ho a ha with ⟨k, hk, hl⟩ | ⟨u, hu⟩
    · refine Or.inl ⟨k, ?_, hf.onward.made k hk, hf.onward.live k a hk hl (by rw [hf.frees])⟩
      rintro rfl
      rw [hm] at hk
      cases hk
    · exact Or.inr ⟨u, by rw [hf.freeId, hu]⟩
  -- a node of the new table was not there
  have hnew : ∀ a, (w₁.store m).Live a → ¬ w.heap.Has a := by
    intro a ha hw
    rcases hold a hw with ⟨k, hkm, hk, hl⟩ | ⟨u, rfl⟩
    · exact hf.inv.disjoint k m a hk hf.here hkm hl ha
    · have h0 := ((hf.inv.table m hf.here).nodes.has _ ha).ne_zero
      exact (hf.inv.scratch u h0).2.2 m hf.here ha
  have hlist : ∃ l : List Bdd, l.length ≤ 2 + 2 * varNum ∧
      ∀ a, w₁.heap.Has a → w.heap.Has a ∨ a ∈ l := by
    unfold init at h
    split at h
    · next g s hrun =>
      obtain rfl := Except.ok.inj h
      exact Store.run_allots _ (few_initNodes varNum n) hrun
    · cases h
  obtain ⟨l, hlen, hl⟩ := hlist
  have ht := hf.inv.table m hf.here
  have hcount : (w₁.store m).nodes.length = 2 + 2 * varNum := by
    have := ht.inv.counted
    unfold Store.Counted at this
    rw [ht.owed, show (w₁.store m).set.numEntry = 2 + 2 * varNum from hf.count] at this
    exact this.symm
  have hsub : (w₁.store m).nodes.Subperm l := by
    refine (Store.nodes_nodup ht.inv.table.chains).subperm fun a ha => ?_
    have hla := Store.mem_nodes.mp ha
    exact (hl a (ht.nodes.has a hla)).resolve_left (hnew a hla)
  have hperm := hsub.perm_of_length_le (by rw [hcount]; exact hlen)
  intro a ha
  rcases hl a ha with ha | ha
  · rcases hold a ha with ⟨k, -, hk, hl⟩ | hu
    · exact Or.inl ⟨k, hk, hl⟩
    · exact Or.inr hu
  · exact Or.inl ⟨m, hf.here, Store.mem_nodes.mp (hperm.mem_iff.mpr ha)⟩

/-! ## A call -/

/-- **One step keeps every node owned.** -/
theorem Step.owned (hi : w.Resting) (h : Step t w w') (ho : w.Owned) : w'.Owned := by
  cases h with
  | init m n tableSize cacheSize varNum hm hrun => exact init_owned hi.inv hm hrun ho
  | call m n c r hm hu hrun => exact run_call_owned hi.inv hm (hi.idle m hm) hu hrun ho
  | refBdd m a hm ha hrun =>
    exact (run_quiet (p := Manager.refBdd a) ⟨trivial, fun _ => trivial⟩ hrun).owned ho
  | derefBdd m a hm ha hrun =>
    exact (run_quiet (p := Manager.derefBdd a) ⟨trivial, fun _ => trivial⟩ hrun).owned ho
  | gc m n c hm hrun =>
    rcases run_gc hi.inv hm (hi.idle m hm) t n with ⟨c', w₁, h1, -, -, hc, -⟩ | ⟨h1, -⟩
    · obtain ⟨-, rfl⟩ := Prod.mk.inj (Except.ok.inj (h1.symm.trans hrun))
      exact cleaned_owned hi.inv hm hc ho
    · cases h1.symm.trans hrun
  | makeNode m level low high r hm hlow hhigh hlevel hbelow hrun =>
    obtain ⟨r', w₁, he, h⟩ := run_step_inv hrun
    obtain ⟨-, rfl⟩ := Prod.mk.inj (Except.ok.inj h)
    exact exec_makeNode_owned hi.inv hm he ho
  | deserialize debug R content x x' m n h hR hm hbytes hrun =>
    obtain ⟨hleg, -⟩ := hbytes.legible
    exact run_deserialize_owned hR (hi.now hm) (hi.idle m hm) (hleg debug) hrun ho

end Manager

/-! ## Managers come and go -/

namespace World

/-- A state between two calls, whatever the collector has left of the managers. -/
structure Orderly (w : World) : Prop where
  sound : ∀ m, w.made m = true → w.Sound m
  table : ∀ m, w.made m = true → w.HasConsts m → TableOk (w.consts m) (w.store m)
  idle : ∀ m, w.made m = true → w.Idle m
  disjoint : ∀ m m' a, w.made m = true → w.made m' = true → m ≠ m' → (w.store m).Live a →
    ¬ (w.store m').Live a
  scratch : ∀ t, w.freeId t ≠ 0 → w.heap.Has (w.freeId t) ∧ (w.heap.get (w.freeId t)).refCnt = 0 ∧
    ∀ m, w.made m = true → ¬ (w.store m).Live (w.freeId t)
  distinct : ∀ t u, w.freeId t ≠ 0 → w.freeId t = w.freeId u → t = u
  counted : ∀ a, (w.heap.get a).refCnt ≠ 0 → ∃ m, w.made m = true ∧ (w.store m).Live a

variable {w w' : World} {m t n : Nat}

theorem Resting.orderly (h : w.Resting) : w.Orderly :=
  ⟨fun _ hm => h.inv.sound hm, fun m hm _ => h.inv.table m hm, h.idle, h.inv.disjoint, h.inv.scratch,
    h.inv.distinct, h.inv.counted⟩

theorem Orderly.resting (h : w.Orderly) (hw : w.Whole) : w.Resting :=
  ⟨⟨fun m hm => h.table m hm (hw m hm), fun m hm => (h.sound m hm).caches, h.disjoint, h.scratch,
    h.distinct, h.counted⟩, h.idle⟩

/-- The end of a manager leaves the others in order. -/
theorem Orderly.gone (h : w.Orderly) (hm : w.made m = true) (hg : Gone m w w') : w'.Orderly := by
  have hrest : ∀ k, w'.made k = true → k ≠ m ∧ w.made k = true := by
    intro k hk
    rw [hg.made] at hk
    have hkm : k ≠ m := by
      rintro rfl
      simp at hk
    rw [Function.update_of_ne hkm] at hk
    exact ⟨hkm, hk⟩
  have hcell : ∀ k, w'.made k = true → ∀ a, (w.store k).Live a → w'.heap.cell a = w.heap.cell a :=
    fun k hk a ha => hg.cell a (h.disjoint k m a (hrest k hk).2 hm (hrest k hk).1 ha)
  have hmgr : ∀ k, w'.mgr k = w.mgr k := congrFun hg.mgr
  have hlive : ∀ k, w'.made k = true → ∀ a, (w'.store k).Live a ↔ (w.store k).Live a := fun k hk =>
    ((h.sound k (hrest k hk).2).same (hmgr k) (hcell k hk)).2
  have hcon : ∀ k, w'.consts k = w.consts k := fun k => congrArg Manager.toConsts (hmgr k)
  refine ⟨fun k hk => (h.sound k (hrest k hk).2).congr (hmgr k) hg.freeId (hcell k hk),
    fun k hk hc => ?_, fun k hk => ?_, fun k k' a hk hk' hne ha ha' => ?_, fun t ht => ?_,
    fun t u ht htu => ?_, fun a ha => ?_⟩
  · unfold HasConsts at hc
    rw [hlive k hk, hlive k hk, hcon] at hc
    have ht := h.table k (hrest k hk).2 hc
    rw [hcon]
    exact (ht.congr (congrArg Manager.set (hmgr k)) fun a ha =>
      recounted_of_cell (ht.nodes.has a ha) (hcell k hk a ha)).1
  · unfold Idle
    rw [hmgr]
    exact h.idle k (hrest k hk).2
  · exact h.disjoint k k' a (hrest k hk).2 (hrest k' hk').2 hne ((hlive k hk a).mp ha)
      ((hlive k' hk' a).mp ha')
  · rw [hg.freeId] at ht ⊢
    obtain ⟨h1, h2, h3⟩ := h.scratch t ht
    have hsame := recounted_of_cell h1 (hg.cell _ (h3 m hm))
    refine ⟨hsame.1, ?_, fun k hk hl => h3 k (hrest k hk).2 ((hlive k hk _).mp hl)⟩
    unfold Heap.get
    rw [hg.cell _ (h3 m hm)]
    exact h2
  · rw [hg.freeId] at ht htu
    exact h.distinct t u ht htu
  · have hnl : ¬ (w.store m).Live a := by
      intro hl
      refine ha ?_
      unfold Heap.get
      rw [(hg.freed a hl).1]
      rfl
    have hget : w'.heap.get a = w.heap.get a := by
      unfold Heap.get
      rw [hg.cell a hnl]
    rw [hget] at ha
    obtain ⟨k, hk, hl⟩ := h.counted a ha
    have hkm : k ≠ m := fun hkm => hnl (hkm ▸ hl)
    have hk' : w'.made k = true := by
      rw [hg.made, Function.update_of_ne hkm]
      exact hk
    exact ⟨k, hk', (hlive k hk' a).mpr hl⟩

theorem Gone.owned (hg : Gone m w w') (h : w.Orderly) (hm : w.made m = true) (ho : w.Owned) :
    w'.Owned := by
  intro a ha
  have hnl : ¬ (w.store m).Live a := by
    intro hl
    obtain ⟨x, hx⟩ := ha
    rw [(hg.freed a hl).1] at hx
    cases hx
  have hw : w.heap.Has a := by
    unfold Heap.Has at ha ⊢
    rwa [hg.cell a hnl] at ha
  rcases ho a hw with ⟨k, hk, hl⟩ | ⟨t, ht⟩
  · have hkm : k ≠ m := fun hkm => hnl (hkm ▸ hl)
    refine Or.inl ⟨k, ?_, ?_⟩
    · rw [hg.made, Function.update_of_ne hkm]
      exact hk
    · refine (((h.sound k hk).same (congrFun hg.mgr k) fun b hb => ?_).2 a).mpr hl
      exact hg.cell b (h.disjoint k m b hk hm hkm hb)
  · exact Or.inr ⟨t, by rw [hg.freeId, ht]⟩

end World

namespace Manager

open World

variable {w w' : World} {m t n : Nat}

/-- The nodes of a manager after a collection are nodes it had before. -/
theorem collected_live {w₀ : World} {j k : Nat} (h : w₀.Resting) (hj : w₀.made j = true)
    (hs : Shrinks j w₀ w) (hc : Cleaned 0 j w₀ w) (hk : w₀.made k = true) (hkj : k ≠ j) :
    TableOk (w.consts k) (w.store k) ∧ ∀ a, (w.store k).Live a ↔ (w₀.store k).Live a := by
  obtain ⟨h1, -, h2⟩ := h.inv.other hk (hs.others k hkj) fun b hb => by
    have hn : ¬ (w₀.store j).Live b := h.inv.disjoint k j b hk hj hkj hb
    exact ⟨(hc.aside.has b hn).mpr ((h.inv.table k hk).nodes.has b hb), hc.aside.node b hn⟩
  exact ⟨h1, h2⟩

theorem Settled.orderly (h : Settled w) : w.Orderly := by
  have hsound : ∀ m, w.made m = true → w.Sound m := fun m hm => h.sound hm
  cases h with
  | resting h => exact h.orderly
  | collected w₀ j h hj hs hc hl =>
    have hlive := fun k (hk : w₀.made k = true) (hkj : k ≠ j) => collected_live h hj hs hc hk hkj
    have hsub : ∀ k a, w₀.made k = true → (w.store k).Live a → (w₀.store k).Live a := by
      intro k a hk ha
      by_cases hkj : k = j
      · subst hkj
        exact hs.sub a ha
      · exact ((hlive k hk hkj).2 a).mp ha
    refine ⟨hsound, fun k hk hcon => ?_, idle_of_others h hs.made hl hs.others,
      fun k k' a hk hk' hne ha ha' => ?_, fun t ht => ?_, fun t u ht htu => ?_, fun a ha => ?_⟩
    · rw [hs.made] at hk
      by_cases hkj : k = j
      · subst hkj
        obtain ⟨h1, h2⟩ := hcon
        rw [hs.consts] at h1 h2
        exact (hs.inv h1 h2).table k (by rw [hs.made]; exact hk)
      · exact (hlive k hk hkj).1
    · rw [hs.made] at hk hk'
      exact h.inv.disjoint k k' a hk hk' hne (hsub k a hk ha) (hsub k' a hk' ha')
    · rw [hs.freeId] at ht ⊢
      obtain ⟨h1, h2, h3⟩ := h.inv.scratch t ht
      refine ⟨(hc.aside.has _ (h3 j hj)).mpr h1, (hs.refs _).trans h2, fun k hk hl => ?_⟩
      rw [hs.made] at hk
      exact h3 k hk (hsub k _ hk hl)
    · rw [hs.freeId] at ht htu
      exact h.inv.distinct t u ht htu
    · rw [hs.refs] at ha
      obtain ⟨k, hk, hka⟩ := h.inv.counted a ha
      refine ⟨k, by rw [hs.made]; exact hk, ?_⟩
      by_cases hkj : k = j
      · subst hkj
        exact hs.kept a a hka ha .refl
      · exact ((hlive k hk hkj).2 a).mpr hka

/-- The life of a process: the calls of thread `t`, and the ends of managers. -/
inductive Life (t : Nat) (w : World) : World → Prop
  | refl : Life t w w
  | step {w₁ w₂ : World} (h : Life t w w₁) (hw : w₁.Whole) (hs : Step t w₁ w₂) : Life t w w₂
  | drop {w₁ w₂ : World} (m n : Nat) (h : Life t w w₁) (hm : w₁.made m = true)
      (hn : w₁.heap.brk < n) (hrun : Manager.drop m t n w₁ = .ok w₂) : Life t w w₂

theorem Run.life (h : Run t w w') : Life t w w' := by
  induction h with
  | refl => exact .refl
  | step _ hw hs ih => exact .step ih hw hs

theorem drop_gone (h : w.Orderly) (hm : w.made m = true) (hn : w.heap.brk < n)
    (hrun : Manager.drop m t n w = .ok w') : Gone m w w' := by
  obtain ⟨w₁, h1, hg⟩ := drop_ok (t := t) (h.sound m hm).inv.table.chains hn
  obtain rfl := Except.ok.inj (h1.symm.trans hrun)
  exact hg

theorem Life.orderly (h : Life t w w') (hw : w.Orderly) (ho : w.Owned) : w'.Orderly ∧ w'.Owned := by
  induction h with
  | refl => exact ⟨hw, ho⟩
  | step _ hwhole hs ih =>
    have hrest := ih.1.resting hwhole
    exact ⟨(hs.onward hrest).1.orderly, hs.owned hrest ih.2⟩
  | drop m n _ hm hn hrun ih =>
    have hg := drop_gone ih.1 hm hn hrun
    exact ⟨ih.1.gone hm hg, hg.owned ih.1 hm ih.2⟩

/-- The scratch nodes of the other threads stay. -/
theorem Step.freeId (hi : w.Resting) (h : Step t w w') {u : Nat} (hu : u ≠ t) :
    w'.freeId u = w.freeId u := by
  cases h with
  | init m n tableSize cacheSize varNum hm hrun =>
    rcases run_init hi.inv hm t tableSize cacheSize varNum n with ⟨w₁, h1, hf⟩ | ⟨e, h1, -⟩
    · obtain rfl := Except.ok.inj (h1.symm.trans hrun)
      rw [hf.freeId]
    · cases h1.symm.trans hrun
  | call m n c r hm hus hrun =>
    obtain ⟨w₁, w₂, he, hent, hans⟩ := run_call hi.inv hm (hi.idle m hm) hrun
    have hus₁ := hus w₂ he
    rw [hent.eq] at hus₁
    obtain ⟨h1, h2, h3⟩ := hus₁
    simp only [withLock_store, withLock_consts] at h1 h2 h3
    obtain ⟨F, -, ha⟩ := hans ⟨h1, h2, h3⟩
    rw [ha.freeId u hu, hent.shrinks.freeId]
  | refBdd m a hm ha hrun =>
    exact congrFun (run_quiet (p := Manager.refBdd a) ⟨trivial, fun _ => trivial⟩ hrun).freeId u
  | derefBdd m a hm ha hrun =>
    exact congrFun (run_quiet (p := Manager.derefBdd a) ⟨trivial, fun _ => trivial⟩ hrun).freeId u
  | gc m n c hm hrun =>
    rcases run_gc hi.inv hm (hi.idle m hm) t n with ⟨c', w₁, h1, hs, -⟩ | ⟨h1, -⟩
    · obtain ⟨-, rfl⟩ := Prod.mk.inj (Except.ok.inj (h1.symm.trans hrun))
      rw [hs.freeId]
    · cases h1.symm.trans hrun
  | makeNode m level low high r hm hlow hhigh hlevel hbelow hrun =>
    obtain ⟨r', w₁, he, hw⟩ := exec_makeNode_live (t := t) hi hm hlow hhigh hlevel hbelow
    rw [← run_op_eq he hrun, hw.freeId u hu]
  | deserialize debug R content x x' m n h hR hm hbytes hrun =>
    obtain ⟨hleg, f, hf⟩ := hbytes.legible
    rcases run_deserialize hR (hi.now hm) (hi.idle m hm) (hleg debug) hf t n with
      ⟨h', w₁, x₁, h1, hb, -⟩ | ⟨h1, -⟩
    · obtain ⟨-, h2⟩ := Prod.mk.inj (Except.ok.inj (h1.symm.trans hrun))
      obtain rfl := (Prod.mk.inj h2).1
      exact hb.freeId u hu
    · cases h1.symm.trans hrun

theorem Life.freeId (h : Life t w w') (hw : w.Orderly) (ho : w.Owned) {u : Nat} (hu : u ≠ t) :
    w'.freeId u = w.freeId u := by
  induction h with
  | refl => rfl
  | step hl hwhole hs ih => exact (hs.freeId ((hl.orderly hw ho).1.resting hwhole) hu).trans ih
  | drop m n hl hm hn hrun ih =>
    exact (congrFun (drop_gone (hl.orderly hw ho).1 hm hn hrun).freeId u).trans ih

theorem fresh_owned (h : w.Fresh) : w.Owned := by
  rintro a ⟨x, hx⟩
  rw [h.cell a] at hx
  cases hx

/-- **Nothing leaks**: in every state of the life of a process, the nodes that are allocated are
those in the tables of the managers there are, and the scratch node of the thread. -/
theorem Life.no_leak {w₀ : World} (hf : w₀.Fresh) (h : Life t w₀ w) (a : Bdd) :
    w.heap.Has a ↔ (∃ m, w.made m = true ∧ (w.store m).Live a) ∨ a = w.freeId t ∧ a ≠ 0 := by
  obtain ⟨hord, ho⟩ := h.orderly hf.resting.orderly (fresh_owned hf)
  constructor
  · intro ha
    refine (ho a ha).imp_right ?_
    rintro ⟨u, rfl⟩
    by_cases hu : u = t
    · rw [hu]
      exact ⟨rfl, hu ▸ ha.ne_zero⟩
    · refine absurd ?_ ha.ne_zero
      rw [h.freeId hf.resting.orderly (fresh_owned hf) hu, hf.freeId u]
  · rintro (⟨m, hm, hl⟩ | ⟨rfl, h0⟩)
    · exact (hord.sound m hm).inv.table.has hl
    · exact (hord.scratch t h0).1

/-- A manager whose collector has freed a disjunction, and its end. -/
theorem Life.no_leak_errand : ∃ w' w, w = (errandStates 5).world ∧
    Manager.drop 0 0 (w.heap.brk + 1) w = .ok w' ∧
    (∀ a, w.heap.Has a ↔ (∃ m, w.made m = true ∧ (w.store m).Live a) ∨ a = w.freeId 0 ∧ a ≠ 0) ∧
    (∀ a, w'.heap.Has a ↔ (∃ m, w'.made m = true ∧ (w'.store m).Live a) ∨ a = w'.freeId 0 ∧ a ≠ 0) ∧
    w.heap.Has both ∧ ¬ w.heap.Has either ∧ ¬ w'.heap.Has both ∧ w'.made 0 = false := by
  obtain ⟨⟨w₀, hf, hr⟩, -, hm⟩ := errand_reach (Nat.le_refl 5)
  have hboth : ((errandStates 5).world.store 0).Live both := by decide +kernel
  have heither : ¬ (errandStates 5).world.heap.Has either := by decide +kernel
  have hlife := hr.life
  have hord := (hlife.orderly hf.resting.orderly (fresh_owned hf)).1
  have htable := (hord.sound 0 hm).inv.table
  generalize (errandStates 5).world = w at hm hboth heither hlife htable ⊢
  obtain ⟨w', hrun, hg⟩ := drop_ok (m := 0) (t := 0) htable.chains (Nat.lt_succ_self _)
  refine ⟨w', w, rfl, hrun, Life.no_leak hf hlife,
    Life.no_leak hf (hlife.drop 0 _ hm (Nat.lt_succ_self _) hrun), htable.has hboth, heither, ?_, ?_⟩
  · rintro ⟨n, hn⟩
    rw [(hg.freed both hboth).1] at hn
    cases hn
  · rw [hg.made, Function.update_self]

/-- **The end of a manager**, in every state of the life of a process: its nodes are freed, each
once, and nothing else, and the other managers are in order. -/
theorem Life.ends {w₀ : World} (hf : w₀.Fresh) (h : Life t w₀ w) (hm : w.made m = true)
    (hn : w.heap.brk < n) : ∃ w', Manager.drop m t n w = .ok w' ∧ Gone m w w' ∧ Life t w₀ w' ∧
      ∀ k, w'.made k = true → w'.Sound k := by
  obtain ⟨hord, ho⟩ := h.orderly hf.resting.orderly (fresh_owned hf)
  obtain ⟨w', hrun, hg⟩ := drop_ok (t := t) (hord.sound m hm).inv.table.chains hn
  have hlife := h.drop m n hm hn hrun
  exact ⟨w', hrun, hg, hlife, (hlife.orderly hf.resting.orderly (fresh_owned hf)).1.sound⟩

theorem Life.ends_single : ∃ w', Manager.drop 0 0 ((single 8 8 2).heap.brk + 1) (single 8 8 2) = .ok w' ∧
    Gone 0 (single 8 8 2) w' := by
  obtain ⟨⟨w₀, hf, hr⟩, -, hm⟩ := single_ready 8 8 2 (by decide) (by decide)
  generalize single 8 8 2 = w at hr hm ⊢
  obtain ⟨w', h1, h2, -⟩ := Life.ends hf hr.life hm (Nat.lt_succ_self _)
  exact ⟨w', h1, h2⟩

end Manager

end Tobdd
