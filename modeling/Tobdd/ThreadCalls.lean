import Tobdd.ManagerThreads

/-!
# What the calls of many threads do

The steps of a thread, one rule for each, by where the thread is (`Place`): outside the lock,
waiting for the readers, with the write lock, or under a read guard.  The programs of the calls
follow, and with them the proof of the whole system.

    wp_operation: an operation answers what it should, whatever the others do
    wp_gc: a collection takes away nothing that is counted
    proof: the proof of every run
-/

namespace Tobdd.ManagerThreads

open Resume Diagram World
open Manager (Op ops step Enough)

/-- Thread `t` cannot take its step before another thread has gone on. -/
def Waits (m t : Nat) (o : Op) (x : Shared) : Prop :=
  t ∉ (x.lock m).readers ∧
    ((o = .read ∧ ∃ u ≠ t, ∃ b, (x.lock m).writer = some (u, b)) ∨
      (o = .awaitReaders ∧ (x.lock m).writer = some (t, false) ∧ (x.lock m).readers ≠ []))

/-- The steps in which an operation reads, finds, makes or references nodes. -/
def Visits : Op → Prop
  | .acc (.level _) | .acc (.low _) | .acc (.high _) | .acc (.fetchAdd _) | .makeNode _ _ _
  | .notGet _ _ | .notInsert _ _ _ | .get _ _ _ | .insert _ _ _ _ => True
  | _ => False

/-- The table is cleaned up under the write lock only, nodes are visited under a read guard, and
every step can be taken that need not wait. -/
structure Safe (m t : Nat) (o : Op) (x : Shared) : Prop where
  cleans : o.Cleans → (x.lock m).writer = some (t, true)
  visits : Visits o → t ∈ (x.lock m).readers
  stuck : ∀ e, exec m t o x = .error e → e = .spin ∧ Waits m t o x

def logic (g : Consts) (m n t : Nat) : Logic ops Shared where
  exec := exec m t
  rely x x' := Inv g m n x → Rely g m n t x x'
  guar x x' := Inv g m n x → Guar g m n t x x'
  safe := Safe m t
  stops e _ := e ≠ .fault
  fits := Shared.Fits g m n

/-- What thread `t` holds, it goes on to hold, and for the same function. -/
structure Onto (g : Consts) (t : Nat) (x x' : Shared) : Prop where
  refs : ∀ a, (t, a) ∈ x.refs → (t, a) ∈ x'.refs
  means : ∀ a f, x.Holds g t a → x.Means g a f → x'.Means g a f

/-- Thread `t` has `r` read guards; it has set `WRITE_PENDING` if `p` is not `none`, and has the
write guard if it is `some true`. -/
structure Place (g : Consts) (m n t r : Nat) (p : Option Bool) (x : Shared) : Prop where
  inv : Inv g m n x
  readers : (x.lock m).readers.count t = r
  writer : ∀ b, (x.lock m).writer = some (t, b) ↔ p = some b

section
variable {g : Consts} {m n t r : Nat} {p : Option Bool} {α : Type} {x x' x₁ x₂ x₃ : Shared}
  {Q : α → Shared → Prop} {a : Bdd} {f : BoolFn}

theorem Onto.refl (x : Shared) : Onto g t x x := ⟨fun _ h => h, fun _ _ _ h => h⟩

theorem Onto.holds (h : Onto g t x x') (ha : x.Holds g t a) : x'.Holds g t a := ha.imp_left (h.refs a)

theorem Onto.trans (h1 : Onto g t x₁ x₂) (h2 : Onto g t x₂ x₃) : Onto g t x₁ x₃ :=
  ⟨fun a ha => h2.refs a (h1.refs a ha),
    fun a f ha hf => h2.means a f (h1.holds ha) (h1.means a f ha hf)⟩

theorem Rely.onto (h : Rely g m n t x x') : Onto g t x x' := ⟨h.refs, h.means⟩

theorem Guar.onto (h : Guar g m n t x x') (hr : ∀ a, (t, a) ∈ x.refs → (t, a) ∈ x'.refs) :
    Onto g t x x' := ⟨hr, fun a f ha hf => (h.keeps a (holds_count ha)).2 f hf⟩

theorem Place.rely (h : Place g m n t r p x) (hr : Rely g m n t x x') : Place g m n t r p x' :=
  ⟨hr.inv, hr.readers.trans h.readers, fun b => (hr.writer b).trans (h.writer b)⟩

/-- Where only the lock changed. -/
theorem place_lock {l : RwLock} (hi : Inv g m n ⟨x.world.withLock m l, x.refs⟩)
    (hr : l.readers.count t = r) (hp : ∀ b, l.writer = some (t, b) ↔ p = some b) :
    Place g m n t r p ⟨x.world.withLock m l, x.refs⟩ := by
  have hlock : (Shared.mk (x.world.withLock m l) x.refs).lock m = l := by
    unfold Shared.lock
    rw [withLock_mgr]
  constructor
  · exact hi
  · rw [hlock]
    exact hr
  · rw [hlock]
    exact hp

theorem Place.quiet_of_pending (h : Place g m n t r (some false) x) : x.Quiet m := by
  intro u hu
  have hw := (h.writer false).mpr rfl
  rw [hu] at hw
  cases hw

theorem Place.mem_readers (h : Place g m n t 1 p x) : t ∈ (x.lock m).readers := by
  apply List.count_pos_iff.mp
  rw [h.readers]
  omega

theorem Place.not_mem_readers (h : Place g m n t 0 p x) : t ∉ (x.lock m).readers :=
  List.count_eq_zero.mp h.readers

theorem Place.quiet_of_reading (h : Place g m n t 1 p x) : x.Quiet m := by
  apply h.inv.quiet_of_reader
  intro h0
  have hm := h.mem_readers
  rw [h0] at hm
  cases hm

/-! ## Single steps -/

theorem exec_ok {o : Op} {w : World} {v : ops.Res o}
    (h : Manager.exec m t o x.world = .ok (v, w)) :
    exec m t o x = .ok (v, ⟨w, account t o x.refs⟩) := by
  unfold exec
  rw [h]

/-- One step: it can be taken, or it waits. -/
theorem wp_act {o : Op} {k : ops.Res o → Prog ops α} (hx : Place g m n t r p x)
    (hclean : ¬ o.Cleans) (hvisit : Visits o → r = 1)
    (h : ∀ x', Place g m n t r p x' → Rely g m n t x x' →
      (∃ v w, Manager.exec m t o x'.world = .ok (v, w) ∧
        ((Shared.mk w (account t o x'.refs)).Fits g m n →
          Guar g m n t x' ⟨w, account t o x'.refs⟩ ∧
            wp (logic g m n t) (k v) Q ⟨w, account t o x'.refs⟩)) ∨
      (Manager.exec m t o x'.world = .error .spin ∧ Waits m t o x')) :
    wp (logic g m n t) (step o >>= k) Q x := by
  intro x' hr
  have hr := hr hx.inv
  have hx' := hx.rely hr
  have hc : o.Cleans → (x'.lock m).writer = some (t, true) := fun ho => absurd ho hclean
  have hv : Visits o → t ∈ (x'.lock m).readers := by
    intro ho
    obtain rfl := hvisit ho
    exact hx'.mem_readers
  rcases h x' hx' hr with ⟨v, w, he, hdo⟩ | ⟨he, hw⟩
  · have hex : exec m t o x' = .ok (v, ⟨w, account t o x'.refs⟩) := by
      unfold exec
      rw [he]
    refine Logic.Does.of_ok ⟨hc, hv, fun e he' => ?_⟩ hex fun hf => ?_
    · rw [hex] at he'
      cases he'
    · obtain ⟨hg, hq⟩ := hdo hf
      exact ⟨fun _ => hg, hq⟩
  · have hex : exec m t o x' = .error .spin := by
      unfold exec
      rw [he]
    refine Logic.Does.of_error ⟨hc, hv, fun e he' => ?_⟩ hex (by decide : Stop.spin ≠ .fault)
    rw [hex] at he'
    obtain rfl := Except.error.inj he'
    exact ⟨rfl, hw⟩

/-- A step that only reads. -/
theorem wp_see {o : Op} {k : ops.Res o → Prog ops α} (hx : Place g m n t r p x)
    (hclean : ¬ o.Cleans) (hvisit : ¬ Visits o) (hacc : ∀ l, account t o l = l)
    (hex : ∀ w, ∃ v, Manager.exec m t o w = .ok (v, w))
    (h : ∀ v x', Place g m n t r p x' → Onto g t x x' → wp (logic g m n t) (k v) Q x') :
    wp (logic g m n t) (step o >>= k) Q x := by
  refine wp_act hx hclean (fun ho => absurd ho hvisit) fun x' hx' hr => Or.inl ?_
  obtain ⟨v, he⟩ := hex x'.world
  refine ⟨v, _, he, ?_⟩
  rw [hacc]
  exact fun _ => ⟨guar_refl hx'.inv, h v x' hx' hr.onto⟩

/-- The first half of `try_write`. -/
theorem wp_tryPending {k : Bool → Prog ops α} (hx : Place g m n t 0 none x)
    (hno : ∀ x', Place g m n t 0 none x' → Onto g t x x' → wp (logic g m n t) (k false) Q x')
    (hyes : ∀ x', Place g m n t 0 (some false) x' → Onto g t x x' →
      wp (logic g m n t) (k true) Q x') :
    wp (logic g m n t) (step .tryPending >>= k) Q x := by
  refine wp_act hx id (fun ho => ho.elim) fun x' hx' hr => Or.inl ?_
  have hlock : (x'.world.mgr m).rwLock = x'.lock m := rfl
  cases hw : (x'.lock m).writer with
  | some u =>
    refine ⟨false, x'.world, ?_, fun _ => ⟨guar_refl hx'.inv, hno x' hx' hr.onto⟩⟩
    simp only [Manager.exec, hlock, hw]
  | none =>
    have hquiet : x'.Quiet m := fun u hu => by rw [hw] at hu; cases hu
    refine ⟨true, x'.world.withLock m ⟨(x'.lock m).readers, some (t, false)⟩, ?_, fun hf => ?_⟩
    · simp only [Manager.exec, hlock, hw]
      rfl
    · have hg : Guar g m n t x' ⟨x'.world.withLock m ⟨(x'.lock m).readers, some (t, false)⟩, x'.refs⟩ := by
        apply guar_lock hx'.inv hf
        · exact fun u _ => hquiet u
        · exact fun u hu => by cases hu
        · exact fun _ => hx'.inv.quiet hquiet
        · exact fun _ _ => rfl
        · intro u hu b
          simp [hw, hu.symm]
      refine ⟨hg, hyes _ (place_lock hg.inv hx'.readers fun b => by simp)
        (hr.onto.trans (hg.onto fun _ ha => ha))⟩

/-- The second half of `try_write`. -/
theorem wp_awaitReaders {k : Unit → Prog ops α} (hx : Place g m n t 0 (some false) x)
    (h : ∀ x', Place g m n t 0 (some true) x' → x'.world.Inv → Onto g t x x' →
      wp (logic g m n t) (k ()) Q x') :
    wp (logic g m n t) (step .awaitReaders >>= k) Q x := by
  refine wp_act hx id (fun ho => ho.elim) fun x' hx' hr => ?_
  have hw := (hx'.writer false).mpr rfl
  by_cases hr0 : (x'.lock m).readers = []
  · refine Or.inl ⟨(), x'.world.withLock m ⟨[], some (t, true)⟩, ?_, fun hf => ?_⟩
    · exact Manager.exec_awaitReaders (o := some (t, false)) (by
        show x'.lock m = _
        rw [← hw, ← hr0])
    · have hi := hx'.inv.quiet hx'.quiet_of_pending
      have hg : Guar g m n t x' ⟨x'.world.withLock m ⟨[], some (t, true)⟩, x'.refs⟩ := by
        apply guar_lock hx'.inv hf
        · exact fun u _ => hx'.quiet_of_pending u
        · exact fun _ _ => rfl
        · exact fun _ => hi
        · intro u _
          rw [hr0]
        · intro u hu b
          simp [hw, hu.symm]
      refine ⟨hg, h _ (place_lock hg.inv rfl fun b => by simp) (hi.withLock m _)
        (hr.onto.trans (hg.onto fun _ ha => ha))⟩
  · refine Or.inr ⟨?_, hx'.not_mem_readers, Or.inr ⟨rfl, hw, hr0⟩⟩
    show (if (x'.lock m).readers = [] then _ else Except.error Stop.spin) = _
    exact if_neg hr0

/-- The write guard is dropped. -/
theorem wp_dropWrite {k : Unit → Prog ops α} (hx : Place g m n t 0 (some true) x) (hi : x.world.Inv)
    (h : ∀ x', Place g m n t 0 none x' → Onto g t x x' → wp (logic g m n t) (k ()) Q x') :
    wp (logic g m n t) (step .dropWrite >>= k) Q x := by
  have hwx := (hx.writer true).mpr rfl
  refine wp_act hx id (fun ho => ho.elim) fun x' hx' hr => Or.inl ?_
  have hi' := (hr.drops hwx).1.worldInv hi
  have hw := (hx'.writer true).mpr rfl
  have hr0 := hx'.inv.alone t hw
  refine ⟨(), x'.world.withLock m ⟨[], none⟩, ?_, fun hf => ?_⟩
  · exact Manager.exec_dropWrite (o := some (t, true)) (by
      show x'.lock m = _
      rw [← hw, ← hr0])
  · have hg : Guar g m n t x' ⟨x'.world.withLock m ⟨[], none⟩, x'.refs⟩ := by
      apply guar_lock hx'.inv hf
      · intro u hu
        simp [hw, hu.symm]
      · exact fun _ _ => rfl
      · exact fun _ => hi'
      · intro u _
        rw [hr0]
      · intro u hu b
        simp [hw, hu.symm]
    exact ⟨hg, h _ (place_lock hg.inv rfl fun b => by simp) (hr.onto.trans (hg.onto fun _ ha => ha))⟩

/-- A read guard is taken. -/
theorem wp_read {k : Unit → Prog ops α} (hx : Place g m n t 0 none x)
    (h : ∀ x', Place g m n t 1 none x' → Onto g t x x' → wp (logic g m n t) (k ()) Q x') :
    wp (logic g m n t) (step .read >>= k) Q x := by
  refine wp_act hx id (fun ho => ho.elim) fun x' hx' hr => ?_
  cases hw : (x'.lock m).writer with
  | none =>
    have hquiet : x'.Quiet m := fun u hu => by rw [hw] at hu; cases hu
    refine Or.inl ⟨(), x'.world.withLock m ⟨t :: (x'.lock m).readers, (x'.lock m).writer⟩, if_pos hw,
      fun hf => ?_⟩
    have hg : Guar g m n t x'
        ⟨x'.world.withLock m ⟨t :: (x'.lock m).readers, (x'.lock m).writer⟩, x'.refs⟩ := by
      apply guar_lock hx'.inv hf
      · exact fun u _ => hquiet u
      · exact fun u hu => absurd hu (hquiet u)
      · exact fun _ => hx'.inv.quiet hquiet
      · exact fun u hu => List.count_cons_of_ne hu.symm
      · exact fun _ _ _ => Iff.rfl
    refine ⟨hg, h _ (place_lock hg.inv ?_ hx'.writer) (hr.onto.trans (hg.onto fun _ ha => ha))⟩
    show List.count t (t :: (x'.lock m).readers) = 1
    rw [List.count_cons_self, hx'.readers]
  | some c =>
    obtain ⟨u, b⟩ := c
    have hu : u ≠ t := by
      rintro rfl
      cases (hx'.writer b).mp hw
    have hne : (x'.lock m).writer ≠ none := by
      rw [hw]
      simp
    exact Or.inr ⟨if_neg hne, hx'.not_mem_readers, Or.inl ⟨rfl, u, hu, b, hw⟩⟩

/-- The read guard is dropped. -/
theorem wp_dropRead {k : Unit → Prog ops α} (hx : Place g m n t 1 none x)
    (h : ∀ x', Place g m n t 0 none x' → Onto g t x x' → wp (logic g m n t) (k ()) Q x') :
    wp (logic g m n t) (step .dropRead >>= k) Q x := by
  refine wp_act hx id (fun ho => ho.elim) fun x' hx' hr => Or.inl ?_
  have hq := hx'.quiet_of_reading
  refine ⟨(), x'.world.withLock m ⟨(x'.lock m).readers.erase t, (x'.lock m).writer⟩, rfl, fun hf => ?_⟩
  have hg : Guar g m n t x'
      ⟨x'.world.withLock m ⟨(x'.lock m).readers.erase t, (x'.lock m).writer⟩, x'.refs⟩ := by
    apply guar_lock hx'.inv hf
    · exact fun u _ => hq u
    · exact fun u hu => absurd hu (hq u)
    · exact fun _ => hx'.inv.quiet hq
    · exact fun u hu => List.count_erase_of_ne hu
    · exact fun _ _ _ => Iff.rfl
  refine ⟨hg, h _ (place_lock hg.inv ?_ hx'.writer) (hr.onto.trans (hg.onto fun _ ha => ha))⟩
  show List.count t ((x'.lock m).readers.erase t) = 0
  rw [List.count_erase_self, hx'.readers]

/-! ## References -/

theorem count_cons (x : Shared) (w : World) (t : Nat) (a b : Bdd) :
    (Shared.mk w ((t, a) :: x.refs)).count g b = x.count g b + if b = a then 1 else 0 := by
  unfold Shared.count
  rw [List.countP_cons]
  by_cases hb : b = a
  · simp [hb]
    omega
  · simp [hb, Ne.symm hb]

theorem count_erase {x : Shared} (w : World) (ha : (t, a) ∈ x.refs) (b : Bdd) :
    x.count g b = (Shared.mk w (x.refs.erase (t, a))).count g b + if b = a then 1 else 0 := by
  have hp := (List.perm_cons_erase ha).countP_eq fun p => decide (p.2 = b)
  unfold Shared.count
  rw [hp, List.countP_cons]
  by_cases hb : b = a
  · simp [hb]
    omega
  · simp [hb, Ne.symm hb]

/-- A reference is taken to a node of the table. -/
theorem wp_refBdd {k : Unit → Prog ops α} (hx : Place g m n t 1 none x) (ha : x.world.Stands m a f)
    (h : ∀ x', Place g m n t 1 none x' → Onto g t x x' → (t, a) ∈ x'.refs → x'.Means g a f →
      wp (logic g m n t) (k ()) Q x') :
    wp (logic g m n t) (step (.acc (.fetchAdd a)) >>= k) Q x := by
  have hn := hx.inv.now hx.quiet_of_reading
  refine wp_act hx id (fun _ => rfl) fun x' hx' hr => Or.inl ?_
  have hq := hx'.quiet_of_reading
  have hn' := hx'.inv.now hq
  have ha' := hn.stands (hr.reads hx.mem_readers) ha
  have hhas := hn'.table.nodes.has a ha'.1
  refine ⟨(), x'.world.recount a (· + 1), Manager.exec_fetchAdd hhas, fun hf => ?_⟩
  have hcount := count_cons (g := g) x' (x'.world.recount a (· + 1)) t a
  replace hf : (Shared.mk (x'.world.recount a (· + 1)) ((t, a) :: x'.refs)).Fits g m n := hf
  have hg : Guar g m n t x' ⟨x'.world.recount a (· + 1), (t, a) :: x'.refs⟩ := by
    apply guar_recount hx'.inv hf hhas (fun _ => ha'.1)
    · intro b hb
      rw [hcount, if_neg hb]
      rfl
    · rw [hcount, if_pos rfl, UInt64.ofNat_add]
      rfl
    · exact fun u _ b hb => List.mem_cons_of_mem _ hb
    · exact fun u hu => absurd hu (hq u)
  refine ⟨hg, h _ ⟨hg.inv, hx'.readers, hx'.writer⟩ (hr.onto.trans (hg.onto fun b hb =>
    List.mem_cons_of_mem _ hb)) List.mem_cons_self ?_⟩
  unfold Shared.Means Consts.Denotes
  rw [graph_recount]
  exact (hn'.stands_iff.mp ha').2

/-- A reference is given back. -/
theorem wp_derefBdd {k : Unit → Prog ops α} (hx : Place g m n t 0 none x) (ha : (t, a) ∈ x.refs)
    (h : ∀ x', Place g m n t 0 none x' → wp (logic g m n t) (k ()) Q x') :
    wp (logic g m n t) (step (.acc (.fetchSub a)) >>= k) Q x := by
  refine wp_act hx id (fun ho => ho.elim) fun x' hx' hr => Or.inl ?_
  have ha' := hr.refs a ha
  have h0 : x'.count g a ≠ 0 := holds_count (Or.inl ha')
  have hhas := hx'.inv.has a h0
  refine ⟨(), x'.world.recount a (· - 1), Manager.exec_fetchSub hhas, fun hf => ?_⟩
  have hcount := count_erase (g := g) (x'.world.recount a (· - 1)) ha'
  replace hf : (Shared.mk (x'.world.recount a (· - 1)) (x'.refs.erase (t, a))).Fits g m n := hf
  have hg : Guar g m n t x' ⟨x'.world.recount a (· - 1), x'.refs.erase (t, a)⟩ := by
    apply guar_recount hx'.inv hf hhas (fun hq => hx'.inv.live hq h0)
    · intro b hb
      rw [hcount b, if_neg hb]
      rfl
    · rw [hcount a, if_pos rfl, UInt64.ofNat_add]
      exact UInt64.add_sub_cancel ..
    · intro u hu b hb
      refine (List.mem_erase_of_ne ?_).mpr hb
      simp [hu]
    · exact fun _ _ => h0
  exact ⟨hg, h _ ⟨hg.inv, hx'.readers, hx'.writer⟩⟩

/-! ## Under a guard -/

/-- Where the counts do not change, no reference is taken or given back. -/
theorem account_eq {o : Op} {w w' : World} {v : ops.Res o} (he : Manager.exec m t o w = .ok (v, w'))
    (hs : ∀ a, (w'.heap.get a).refCnt = (w.heap.get a).refCnt) (l : List (Nat × Bdd)) :
    account t o l = l := by
  have hedit : ∀ {a : Bdd} {w' : World} {c : UInt64 → UInt64}, w.heap.Has a →
      w.recount a c = w' → (w'.heap.get a).refCnt = (w.heap.get a).refCnt →
      c (w.heap.get a).refCnt = (w.heap.get a).refCnt := by
    rintro a w' c ha rfl h
    rwa [recount_refs_self w a c ha] at h
  have hone : ∀ c : UInt64, c + 1 ≠ c ∧ c - 1 ≠ c := by
    intro c
    constructor
    · intro h
      exact absurd (UInt64.add_eq_left.mp h) (by decide)
    · intro h
      rw [UInt64.sub_eq_add_neg] at h
      exact absurd (UInt64.add_eq_left.mp h) (by decide)
  unfold account
  split
  · next a =>
    by_cases ha : w.heap.Has a
    · have hw := (Prod.mk.inj (Except.ok.inj ((Manager.exec_fetchAdd ha).symm.trans he))).2
      exact absurd (hedit ha hw (hs a)) (hone _).1
    · simp only [Manager.exec, Store.exec, Store.edit, World.store, Heap.cell_of_not_has ha] at he
      cases he
  · next a =>
    by_cases ha : w.heap.Has a
    · have hw := (Prod.mk.inj (Except.ok.inj ((Manager.exec_fetchSub ha).symm.trans he))).2
      exact absurd (hedit ha hw (hs a)) (hone _).2
    · simp only [Manager.exec, Store.exec, Store.edit, World.store, Heap.cell_of_not_has ha] at he
      cases he
  · rfl

/-- Code that runs under a read guard. -/
theorem wp_reading {q : Prog ops α} {P : α → World → Prop} (hx : Place g m n t 1 none x)
    (hq : wp (Manager.reading m t False) q P x.world) :
    wp (logic g m n t) q (fun b x' => P b x'.world ∧ Place g m n t 1 none x' ∧ Onto g t x x') x := by
  refine wp_view (L := Manager.reading m t False) Shared.world
    (fun y => Place g m n t 1 none y ∧ Onto g t x y) ?_ ?_ ⟨hx, .refl x⟩ hq
  · rintro x₁ x₂ ⟨hp, ho⟩ hr
    have hr := hr hp.inv
    have hp' := hp.rely hr
    exact ⟨fun _ _ => ⟨hp'.inv.quiet hp'.quiet_of_reading, hr.reads hp.mem_readers⟩, hp',
      ho.trans hr.onto⟩
  · rintro o x₁ R ⟨hp, ho⟩ ⟨hsafe, hd⟩
    have hquiet := hp.quiet_of_reading
    have hnow := hp.inv.now hquiet
    have hc : o.Cleans → (x₁.lock m).writer = some (t, true) := fun h => absurd h hsafe
    split at hd
    · next v w' he =>
      have he : Manager.exec m t o x₁.world = .ok (v, w') := he
      have hw : Works m t x₁.world w' := (hd trivial).1 hnow.inv hnow.made
      have hex := exec_ok he
      rw [account_eq he hw.refs] at hex
      refine Logic.Does.of_ok ⟨hc, fun _ => hp.mem_readers, fun e he' => ?_⟩ hex fun hf => ?_
      · rw [hex] at he'
        cases he'
      · have hg := guar_works hp.inv hp.mem_readers hf hw
        have hlock : (Shared.mk w' x₁.refs).lock m = x₁.lock m := hw.lock
        refine ⟨fun _ => hg, (hd trivial).2, ⟨hg.inv, ?_, ?_⟩, ho.trans (hg.onto fun _ ha => ha)⟩
        · rw [hlock]
          exact hp.readers
        · rw [hlock]
          exact hp.writer
    · next e he =>
      rcases hd with ⟨-, h⟩ | ⟨-, h⟩
      · exact h.elim
      · exact absurd (hp.inv.fitsWorld hquiet) h

/-- The lock stays as it is while the table is cleaned up. -/
theorem exec_cleans {o : Op} {w w' : World} {v : ops.Res o} (ho : o.Cleans)
    (he : Manager.exec m t o w = .ok (v, w')) :
    (w'.mgr m).rwLock = (w.mgr m).rwLock ∧ ∀ l, account t o l = l := by
  have hset : ∀ {g' : Manager} {r : Unit}, Manager.change w m g' = .ok (r, w') →
      g'.rwLock = (w.mgr m).rwLock → (w'.mgr m).rwLock = (w.mgr m).rwLock := by
    intro g' r h hl
    obtain rfl := (Prod.mk.inj (Except.ok.inj h)).2
    rw [setMgr_mgr]
    exact hl
  cases o with
  | clean o =>
    refine ⟨?_, fun _ => rfl⟩
    simp only [Manager.exec] at he
    split at he
    · obtain ⟨-, rfl⟩ := Prod.mk.inj (Except.ok.inj he)
      rw [put_mgr]
    · cases he
  | notInvalidate => exact ⟨hset he rfl, fun _ => rfl⟩
  | notGrow => exact ⟨hset he rfl, fun _ => rfl⟩
  | invalidate c => exact ⟨hset he rfl, fun _ => rfl⟩
  | grow c => exact ⟨hset he rfl, fun _ => rfl⟩
  | _ => exact ho.elim

theorem not_visits {o : Op} (ho : o.Cleans) : ¬ Visits o := by
  cases o with
  | clean o => exact id
  | notInvalidate | notGrow | invalidate | grow => exact id
  | _ => exact ho.elim

/-- Code that runs under the write guard. -/
theorem wp_cleaning {q : Prog ops α} {P : α → World → Prop} (hx : Place g m n t 0 (some true) x)
    (hi : x.world.Inv) (honly : q.Only Op.Cleans)
    (hq : wp (Manager.cleaning (x.world.store m).Live m t False False) q P x.world) :
    wp (logic g m n t) q (fun b x' => P b x'.world ∧ Place g m n t 0 (some true) x' ∧ Onto g t x x') x := by
  have hlive : ∀ a, x.count g a ≠ 0 → (x.world.store m).Live a := by
    intro a ha
    obtain ⟨k, hk, hl⟩ := hi.counted a (hx.inv.refCnt_ne.mpr ha)
    obtain rfl := (hx.inv.made k).mp hk
    exact hl
  refine wp_mono ?_ (wp_view Shared.world (fun y => Place g m n t 0 (some true) y ∧ Onto g t x y ∧
    ∀ a, y.count g a ≠ 0 → (x.world.store m).Live a) ?_ ?_ ⟨hx, .refl x, hlive⟩ (wp_only honly hq))
  · rintro b x' ⟨hP, hp, ho, -⟩
    exact ⟨hP, hp, ho⟩
  · rintro x₁ x₂ ⟨hp, ho, hV⟩ hr
    have hr := hr hp.inv
    obtain ⟨hd, hc⟩ := hr.drops ((hp.writer true).mpr rfl)
    exact ⟨hd, hp.rely hr, ho.trans hr.onto, fun a ha => hV a (hc a ha)⟩
  · rintro o x₁ R ⟨hp, ho, hV⟩ ⟨⟨-, hcl⟩, hd⟩
    have hw := (hp.writer true).mpr rfl
    split at hd
    · next v w' he =>
      have he : Manager.exec m t o x₁.world = .ok (v, w') := he
      obtain ⟨hlock, hacc⟩ := exec_cleans hcl he
      have hc : Cleans (x.world.store m).Live m x₁.world w' := (hd trivial).1
      have hex := exec_ok he
      rw [hacc] at hex
      refine Logic.Does.of_ok ⟨fun _ => hw, fun h => absurd h (not_visits hcl), fun e he' => ?_⟩ hex
        fun hf => ?_
      · rw [hex] at he'
        cases he'
      · have hg := guar_cleans hp.inv hw hV hf hc hlock
        have hlock : (Shared.mk w' x₁.refs).lock m = x₁.lock m := hlock
        refine ⟨fun _ => hg, (hd trivial).2, ⟨hg.inv, ?_, ?_⟩, ho.trans (hg.onto fun _ ha => ha), hV⟩
        · rw [hlock]
          exact hp.readers
        · rw [hlock]
          exact hp.writer
    · next e he =>
      rcases hd with ⟨-, h⟩ | ⟨-, h⟩
      · exact h.elim
      · exact h.elim

/-! ## The programs -/

theorem only_step {o : Op} (ho : o.Cleans) : (step o).Only Op.Cleans := ⟨ho, fun _ => trivial⟩

theorem only_cleaner {β : Type} (q : Prog mem β) : (q.lift Manager.cleaner).Only Op.Cleans :=
  only_lift (fun _ => trivial) q

theorem only_invalidateCaches : Manager.invalidateCaches.Only Op.Cleans :=
  .bind (only_step trivial) fun _ => .bind (only_step trivial) fun _ => .bind (only_step trivial)
    fun _ => .bind (only_step trivial) fun _ => .bind (only_step trivial) fun _ =>
    .bind (only_step trivial) fun _ => trivial

theorem only_growCaches : Manager.growCaches.Only Op.Cleans :=
  .bind (only_step trivial) fun _ => .bind (only_step trivial) fun _ => .bind (only_step trivial)
    fun _ => .bind (only_step trivial) fun _ => .bind (only_step trivial) fun _ =>
    .bind (only_step trivial) fun _ => trivial

theorem only_collect (n : Nat) : (Manager.collect n).Only Op.Cleans :=
  .bind (only_cleaner _) fun _ => .bind (only_cleaner _) fun _ => .bind (only_cleaner _) fun _ =>
    .bind only_invalidateCaches fun _ => trivial

theorem only_cleanUp (e b n : Nat) : (Manager.cleanUp e b n).Only Op.Cleans :=
  .bind (only_cleaner _) fun _ => .ite _
    (.bind (only_cleaner _) fun _ => .bind (only_cleaner _) fun _ => only_growCaches)
    (.bind (only_cleaner _) fun _ => .bind (only_cleaner _) fun _ => only_invalidateCaches)

/-- The invariant of the memory holds again after a cleaning. -/
theorem Place.cleaned (hx' : Place g m n t 0 (some true) x') (hi : x.world.Inv) {d : Nat}
    (hx : Inv g m n x) (hc : Cleaned d m x.world x'.world) : x'.world.Inv := by
  have hn := (hi.table m hx.made_self).nodes
  have hcon : x.world.consts m = g := hx.consts
  have hlive : ∀ a, g.Kept a → (x.world.store m).Live a → (x'.world.store m).Live a := fun a ha hl =>
    ((hc.tidied.has a).mp (hx'.inv.has_kept ha)).2 hl
  apply hc.inv hi hx.made_self
  · rw [hcon]
    exact hlive _ (kept_top g) (hcon ▸ hn.top)
  · rw [hcon]
    exact hlive _ (kept_bot g) (hcon ▸ hn.bot)

theorem Inv.roomy_set (h : Inv g m n x) : rangeI32 ((x.world.mgr m).set.sizeExp + 1) =
    shl64 ((x.world.mgr m).set.sizeExp + 1) := by
  apply rangeI32_eq_shl64
  have := h.fits.roomy.set
  omega

/-- **`enter_op`** comes back with a read guard. -/
theorem wp_enterOp (hx : Place g m n t 0 none x) :
    wp (logic g m n t) (Manager.enterOp n)
      (fun _ x' => Place g m n t 1 none x' ∧ Onto g t x x') x := by
  unfold Manager.enterOp
  refine wp_see (o := .acc .entryNum) hx id id (fun _ => rfl) (fun _ => ⟨_, Manager.exec_entryNum⟩)
    fun (e : Nat) x₁ hx₁ ho₁ => ?_
  refine wp_see (o := .acc .sizeExp) hx₁ id id (fun _ => rfl) (fun _ => ⟨_, Manager.exec_sizeExp⟩)
    fun (b : Nat) x₂ hx₂ ho₂ => ?_
  have ho := ho₁.trans ho₂
  -- without the write lock
  have hread : ∀ x', Place g m n t 0 none x' → Onto g t x x' → wp (logic g m n t) (step .read)
      (fun _ x' => Place g m n t 1 none x' ∧ Onto g t x x') x' := fun x' hx' ho' =>
    wp_read (k := Prog.ret) hx' fun x₃ hx₃ ho₃ => ⟨hx₃, ho'.trans ho₃⟩
  refine wp_bind.mpr (wp_ite (shl64 b * Manager.MAX_LOAD_FACTOR ≤ e) (fun _ => ?_)
    fun _ => hread x₂ hx₂ ho)
  refine wp_tryPending (k := Prog.ret) hx₂ (fun x₃ hx₃ ho₃ => hread x₃ hx₃ (ho.trans ho₃))
    fun x₃ hx₃ ho₃ => ?_
  refine wp_awaitReaders hx₃ fun x₄ hx₄ hi₄ ho₄ => ?_
  have hsized : ¬ (x₄.world.store m).Sized → False :=
    fun hs => hs (hi₄.table m hx₄.inv.made_self).sized
  have hn : False ∨ Enough x₄.world m n := Or.inr hx₄.inv.fits.enough
  have hclean := Manager.wp_cleanUp (t := t) hi₄ hx₄.inv.made_self hsized hn
    e (shl64 b) fun _ _ _ hs => hs hx₄.inv.roomy_set
  refine wp_seq (wp_cleaning hx₄ hi₄ (only_cleanUp ..) hclean) ?_
  rintro _ x₅ ⟨⟨M, -, hc⟩, hx₅, ho₅⟩
  have hi₅ : x₅.world.Inv := by
    rcases hc with ⟨-, hc, -⟩ | ⟨-, hc, -⟩
    · exact hx₅.cleaned hi₄ hx₄.inv hc
    · exact hx₅.cleaned hi₄ hx₄.inv hc
  exact wp_dropWrite hx₅ hi₅ fun x₆ hx₆ ho₆ =>
    hread x₆ hx₆ ((((ho.trans ho₃).trans ho₄).trans ho₅).trans ho₆)

/-- **`gc`.** -/
theorem wp_gc (hx : Place g m n t 0 none x) :
    wp (logic g m n t) (Manager.gc n) (fun _ x' => Place g m n t 0 none x') x := by
  unfold Manager.gc
  refine wp_tryPending hx (fun x₁ hx₁ _ => ?_) fun x₁ hx₁ _ => ?_
  · exact hx₁
  refine wp_awaitReaders hx₁ fun x₂ hx₂ hi₂ _ => ?_
  have hsized : ¬ (x₂.world.store m).Sized → False :=
    fun hs => hs (hi₂.table m hx₂.inv.made_self).sized
  have hn : False ∨ Enough x₂.world m n := Or.inr hx₂.inv.fits.enough
  have hclean := Manager.wp_collect (t := t) hi₂ hx₂.inv.made_self hsized hn
  refine wp_seq (wp_cleaning hx₂ hi₂ (only_collect n) hclean) ?_
  rintro c x₃ ⟨⟨hc, -⟩, hx₃, -⟩
  exact wp_dropWrite hx₃ (hx₃.cleaned hi₂ hx₂.inv hc) fun x₄ hx₄ _ => hx₄

/-- What a thread knows of an operation that has answered `r`. -/
structure Done (g : Consts) (m n t : Nat) (c : Manager.Call) (r : Bdd) (x : Shared) : Prop where
  place : Place g m n t 0 none x
  owned : (t, r) ∈ x.refs
  args : ∀ a ∈ c.args, x.Holds g t a
  right : ∃ F, c.Spec (fun a f => x.Means g a f) F ∧ x.Means g r F

/-- **The operations.** -/
theorem wp_operation {c : Manager.Call} (hx : Place g m n t 0 none x)
    (hargs : ∀ a ∈ c.args, x.Holds g t a) :
    wp (logic g m n t) (c.prog g n) (Done g m n t c) x := by
  rw [Manager.Call.prog_eq, Manager.operation_eq]
  refine wp_seq (wp_enterOp hx) ?_
  rintro _ x₁ ⟨hx₁, ho₁⟩
  have hnow := hx₁.inv.now hx₁.quiet_of_reading
  have hargs₁ : ∀ a ∈ c.args, x₁.Holds g t a := fun a ha => ho₁.holds (hargs a ha)
  -- what the operands stand for
  have hlive : ∀ a ∈ c.args, (x₁.world.store m).Live a := fun a ha =>
    hx₁.inv.live hx₁.quiet_of_reading (holds_count (hargs₁ a ha))
  obtain ⟨F, hF⟩ := Manager.Call.exists_spec (S := fun a f => x₁.Means g a f) (c := c) fun a ha =>
    hnow.table.nodes.denotes (hlive a ha)
  have hstands : c.Spec (x₁.world.Stands m) F := hF.mono fun a ha f hf =>
    hnow.stands_iff.mpr ⟨hlive a ha, hf⟩
  have hrounds : False ∨ g.numVars + 1 < n := by
    have := hx₁.inv.fits.enough.level
    rw [hx₁.inv.consts] at this
    exact Or.inr this
  unfold Manager.answer
  refine wp_seq (wp_reading hx₁ (Manager.wp_rec hnow hstands hrounds)) ?_
  rintro r x₂ ⟨⟨-, -, hr⟩, hx₂, ho₂⟩
  refine wp_refBdd hx₂ hr fun x₃ hx₃ ho₃ hown hmeans => ?_
  refine wp_dropRead hx₃ fun x₄ hx₄ ho₄ => ?_
  have ho := (ho₂.trans ho₃).trans ho₄
  constructor
  · exact hx₄
  · exact ho₄.refs r hown
  · exact fun a ha => ho.holds (hargs₁ a ha)
  · exact ⟨F, hF.mono fun a ha f hf => ho.means a f (hargs₁ a ha) hf,
      ho₄.means r F (Or.inl hown) hmeans⟩

/-- ... and it does not change while the others act. -/
theorem Done.rely {c : Manager.Call} {b : Bdd} (h : Done g m n t c b x) (hr : Rely g m n t x x') :
    Done g m n t c b x' := by
  obtain ⟨F, hF, hb⟩ := h.right
  constructor
  · exact h.place.rely hr
  · exact hr.refs b h.owned
  · exact fun a ha => hr.onto.holds (h.args a ha)
  · exact ⟨F, hF.mono fun a ha f hf => hr.means a f (h.args a ha) hf,
      hr.means b F (Or.inl h.owned) hb⟩

/-! ## The proof -/

/-- What is known of a call when it returns. -/
def Post (g : Consts) (m n t : Nat) : Call → Ret → Shared → Prop
  | .op c, .bdd b, x => Done g m n t c b x
  | .op _, _, _ => False
  | _, _, x => Place g m n t 0 none x

theorem Post.place {c : Call} {b : Ret} (h : Post g m n t c b x) : Place g m n t 0 none x := by
  cases c with
  | op c =>
    cases b with
    | bdd b => exact Done.place h
    | marked _ | done => exact h.elim
  | gc | derefBdd _ | hand _ _ => exact h

theorem Post.rely {c : Call} {b : Ret} (h : Post g m n t c b x) (hr : Rely g m n t x x') :
    Post g m n t c b x' := by
  cases c with
  | op c =>
    cases b with
    | bdd b => exact Done.rely h hr
    | marked _ | done => exact h.elim
  | gc | derefBdd _ | hand _ _ => exact Place.rely h hr

/-- A reference goes over to another thread. -/
theorem guar_hand {u : Nat} (hx : Place g m n t 0 none x) (ha : (t, a) ∈ x.refs)
    (hfit : (Shared.mk x.world ((u, a) :: x.refs.erase (t, a))).Fits g m n) :
    Guar g m n t x ⟨x.world, (u, a) :: x.refs.erase (t, a)⟩ := by
  apply guar_refs hx.inv hfit
  · intro b
    rw [count_erase x.world ha b]
    exact count_cons (Shared.mk x.world (x.refs.erase (t, a))) x.world u a b
  · intro v hv b hb
    apply List.mem_cons_of_mem
    refine (List.mem_erase_of_ne ?_).mpr hb
    simp [hv]

/-- The rely-guarantee proof of `clients`. -/
def proof (g : Consts) (m n : Nat) : Proof (clients g m n) (Shared.Fits g m n) where
  inv := Inv g m n
  rely t x x' := Inv g m n x → Rely g m n t x x'
  guar t x x' := Inv g m n x → Guar g m n t x x'
  safe := Safe m
  idle t := Place g m n t 0 none
  post t := Post g m n t
  rely_refl _ _ _ := fun h => .refl h
  rely_trans _ _ _ _ h1 h2 := fun h => (h1 h).trans (h2 (h1 h).inv)
  guar_inv _ _ _ hi h := (h hi).inv
  guar_rely _ _ _ _ hi h hne := fun _ => (h hi).rely hi hne
  idle_stable _ _ _ h hr := h.rely (hr h.inv)
  post_stable _ _ _ _ _ h hr := h.rely (hr h.place.inv)
  call t c _ x hi hx hl hf := by
    cases c with
    | op c =>
      refine ⟨fun _ => guar_refl hi, ?_⟩
      exact wp_seq (wp_operation hx hl) fun r x' h => h
    | gc =>
      refine ⟨fun _ => guar_refl hi, ?_⟩
      exact wp_seq (wp_gc hx) fun c x' h => h
    | derefBdd a =>
      refine ⟨fun _ => guar_refl hi, ?_⟩
      exact wp_derefBdd hx hl fun x' h => h
    | hand a u =>
      have hg := guar_hand hx hl hf
      exact ⟨fun _ => hg, hg.inv, hx.readers, hx.writer⟩
  leave _ _ _ _ hi h _ := ⟨fun _ => guar_refl hi, h.place⟩

end

end Tobdd.ManagerThreads
