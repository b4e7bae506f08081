import Mathlib.Data.List.Count
import Tobdd.Insert
import Tobdd.Lib.Schedule

/-!
# Threads that insert into one table

Any number of threads call `get_or_insert`, each with a node of its own that it has just
filled in.  No thread grows or collects the table, as the manager's read lock guarantees.
Every load of a link, every store of the new node's link, every exchange and every count
is a step of its own.

For every interleaving: the chains stay sorted, end in null and lose no node; all calls
with one key answer one pointer, and when none is under way exactly one of those whose
node was not in the table at first has answered `true`, and `num_entry` counts the
nodes   (getOrInsert_once)
-/

namespace Tobdd.SetThreads

open Resume Store

/-- A call that has returned: the node it came with, its key, and what it answered. -/
structure Done where
  own : Bdd
  key : Key
  ptr : Bdd
  inserted : Bool

/-- The memory, and (for the proof only) the threads inside a call, each with its node, and
the calls that have returned. -/
structure Shared where
  store : Store
  calls : List (Nat × Bdd)
  log : List Done

inductive Call where
  /-- allocate a node -/
  | alloc
  /-- fill in the node `p` and insert it -/
  | insert (p : Bdd) (level : UInt64) (low high : Bdd)
  deriving DecidableEq

/-- The memory after the thread has filled in its node. -/
def fill (s : Store) (p : Bdd) (level : UInt64) (low high : Bdd) : Store :=
  { s with heap := s.heap.modify p fun _ => Node.from' level low high }

def inserts : System mem Shared Nat Call (Bdd × Bool) where
  exec t o w :=
    match Store.exec t o w.store with
    | .ok (r, s) => .ok (r, { w with store := s })
    | .error e => .error e
  code _ c n :=
    match c with
    | .alloc => return (0, false)
    | .insert p _ _ _ => LockFreeSet.getOrInsert p n
  -- a node of one's own: allocated, not linked, in no other call
  legal _ c w :=
    match c with
    | .alloc => True
    | .insert p _ _ _ => w.store.heap.Has p ∧ ¬ w.store.Live p ∧ ∀ u, (u, p) ∉ w.calls
  enter t c w :=
    match c with
    | .alloc => { w with store := { w.store with heap := w.store.heap.alloc (Node.new 0) } }
    | .insert p level low high =>
      { w with store := fill w.store p level low high, calls := (t, p) :: w.calls }
  leave t c r w :=
    match c with
    | .alloc => w
    | .insert p level low high =>
      { w with
        calls := w.calls.erase (t, p)
        log := ⟨p, (Node.from' level low high).key, r.1, r.2⟩ :: w.log }

/-- How many returned calls have inserted `a`. -/
def wins (w : Shared) (a : Bdd) : Nat := w.log.countP fun d => d.inserted && d.ptr == a

/-- How many calls under way came with `a`. -/
def underWay (w : Shared) (a : Bdd) : Nat := w.calls.countP fun c => c.2 == a

/-- Since the table was `s₀`, every node now linked was inserted by one call, returned or not. -/
structure Inv (s₀ : Store) (w : Shared) : Prop where
  store : w.store.Inv
  grows : s₀.Grows w.store
  threads : (w.calls.map Prod.fst).Nodup
  own : (w.calls.map Prod.snd).Nodup
  has : ∀ t p, (t, p) ∈ w.calls → w.store.heap.Has p ∧ ¬ s₀.Live p
  owed : ∀ t ∈ w.store.set.owed, ∃ p, (t, p) ∈ w.calls
  log : ∀ d ∈ w.log, w.store.Live d.ptr ∧ w.store.key d.ptr = d.key
  one : ∀ a, w.store.Live a → ¬ s₀.Live a → wins w a + underWay w a = 1
  none : ∀ a, ¬ w.store.Live a ∨ s₀.Live a → wins w a = 0

structure Keeps (t : Nat) (w w' : Shared) : Prop where
  calls : ∀ p, (t, p) ∈ w'.calls ↔ (t, p) ∈ w.calls
  owed : w'.store.set.owed.count t = w.store.set.owed.count t
  steady : ∀ p, (t, p) ∈ w.calls → Steady t p w.store w'.store

theorem Keeps.refl {t : Nat} {w : Shared} (h : w.store.Inv) : Keeps t w w :=
  ⟨fun _ => Iff.rfl, rfl, fun _ _ => .refl h⟩

theorem Keeps.trans {t : Nat} {w₁ w₂ w₃ : Shared} (h1 : Keeps t w₁ w₂) (h2 : Keeps t w₂ w₃) :
    Keeps t w₁ w₃ := by
  refine ⟨fun p => (h2.calls p).trans (h1.calls p), h2.owed.trans h1.owed, fun p hp => ?_⟩
  have hs1 := h1.steady p hp
  have hs2 := h2.steady p ((h1.calls p).mpr hp)
  refine ⟨hs2.inv, hs1.grows.trans hs2.grows, fun hl => ?_, hs2.owed.trans hs1.owed⟩
  obtain ⟨hl1, hc1⟩ := hs1.mine hl
  obtain ⟨hl2, hc2⟩ := hs2.mine hl1
  exact ⟨hl2, hc2.trans hc1⟩

structure Guar (s₀ : Store) (t : Nat) (w w' : Shared) : Prop where
  inv : Inv s₀ w'
  keeps : ∀ u, u ≠ t → Keeps u w w'
  grows : w.store.Grows w'.store

/-! ## Each kind of step -/

/-- Two calls under way come with two nodes. -/
theorem Inv.eq_of_own {s₀ : Store} {w : Shared} (h : Inv s₀ w) {t u : Nat} {p : Bdd}
    (ht : (t, p) ∈ w.calls) (hu : (u, p) ∈ w.calls) : t = u := by
  have := List.inj_on_of_nodup_map h.own ht hu rfl
  injection this

theorem Inv.eq_of_thread {s₀ : Store} {w : Shared} (h : Inv s₀ w) {t : Nat} {p q : Bdd}
    (hp : (t, p) ∈ w.calls) (hq : (t, q) ∈ w.calls) : p = q := by
  have := List.inj_on_of_nodup_map h.threads hp hq rfl
  injection this

theorem underWay_eq (w : Shared) (a : Bdd) : underWay w a = (w.calls.map Prod.snd).count a := by
  unfold underWay
  rw [List.count, List.countP_map]
  rfl

theorem Inv.underWay_one {s₀ : Store} {w : Shared} (h : Inv s₀ w) {t : Nat} {p : Bdd}
    (ht : (t, p) ∈ w.calls) : underWay w p = 1 := by
  rw [underWay_eq]
  exact List.count_eq_one_of_mem h.own (List.mem_map.mpr ⟨(t, p), ht, rfl⟩)

/-- A step of an insert. -/
theorem guar_inserted {s₀ : Store} {t : Nat} {p : Bdd} {w : Shared} {s' : Store} (h : Inv s₀ w)
    (hp : (t, p) ∈ w.calls) (hs : Inserted t p w.store s') :
    Guar s₀ t w { w with store := s' } := by
  have hlive : ∀ a, w.store.Live a → s'.Live a := fun a => hs.grows.live
  refine ⟨⟨hs.inv, h.grows.trans hs.grows, h.threads, h.own, fun u q hq => ?_, fun u hu => ?_,
    fun d hd => ?_, fun a ha ha0 => ?_, fun a ha => ?_⟩, fun u hu => ⟨fun q => Iff.rfl, hs.owed u hu,
    fun q hq => ?_⟩, hs.grows⟩
  · exact ⟨(hs.has q).mpr (h.has u q hq).1, (h.has u q hq).2⟩
  · by_cases hut : u = t
    · subst hut
      exact ⟨p, hp⟩
    · refine h.owed u (List.count_pos_iff.mp ?_)
      rw [← hs.owed u hut]
      exact List.count_pos_iff.mpr hu
  · obtain ⟨h1, h2⟩ := h.log d hd
    exact ⟨hlive _ h1, (hs.grows.key h1).trans h2⟩
  · by_cases hl : w.store.Live a
    · exact h.one a hl ha0
    · -- the node just linked
      obtain rfl := (hs.new a ha).resolve_left hl
      have hw : wins w a = 0 := h.none a (Or.inl hl)
      have hu : underWay w a = 1 := h.underWay_one hp
      show wins w a + underWay w a = 1
      omega
  · exact h.none a (ha.imp_left fun hl hl' => hl (hlive a hl'))
  · refine hs.steady hu fun hqp => hu ?_
    subst hqp
    exact h.eq_of_own hq hp

/-- A step that changes no linked node and no node of another call. -/
theorem steady_private {s₀ : Store} {t : Nat} {w : Shared} {u : Store} (h : Inv s₀ w)
    (hset : u.set = w.store.set)
    (hcell : ∀ a, w.store.Live a ∨ (∃ v, v ≠ t ∧ (v, a) ∈ w.calls) →
      u.heap.cell a = w.store.heap.cell a) :
    u.Inv ∧ w.store.Grows u ∧ (∀ a, u.Live a ↔ w.store.Live a) ∧
      ∀ v p, v ≠ t → (v, p) ∈ w.calls → Steady v p w.store u := by
  obtain ⟨hinv, hch⟩ := h.store.congr (u := u) (by rw [hset]) (by rw [hset]) (by rw [hset])
    (by rw [hset]) fun a ha => by
      unfold Heap.Has Heap.get
      rw [hcell a (Or.inl ha)]
      exact ⟨h.store.table.has ha, .refl _⟩
  have hlive := live_congr (s := w.store) (u := u) (by rw [hset]) hch
  have hgrows : w.store.Grows u := by
    refine ⟨by rw [hset], by rw [hset], fun j hj => by rw [hch j hj], fun a ha => ?_⟩
    unfold Heap.get
    rw [hcell a (Or.inl ha)]
    exact .refl _
  refine ⟨hinv, hgrows, hlive, fun v p hv hp => ⟨hinv, hgrows, fun hl => ⟨?_, ?_⟩, by rw [hset]⟩⟩
  · exact fun hl' => hl ((hlive p).mp hl')
  · exact hcell p (Or.inr ⟨v, hv, hp⟩)

theorem guar_alloc {s₀ : Store} {t : Nat} {w : Shared} (h : Inv s₀ w) (n : Node) :
    Guar s₀ t w { w with store := { w.store with heap := w.store.heap.alloc n } } := by
  have hold : ∀ a, w.store.heap.Has a → (w.store.heap.alloc n).cell a = w.store.heap.cell a :=
    fun a ha => Heap.alloc_cell_of_ne ha.ne_fresh
  obtain ⟨hinv, hgrows, hlive, hst⟩ := steady_private (t := t)
    (u := { w.store with heap := w.store.heap.alloc n }) h rfl fun a ha => by
      refine hold a ?_
      rcases ha with ha | ⟨u, _, hu⟩
      · exact h.store.table.has ha
      · exact (h.has u a hu).1
  refine ⟨⟨hinv, h.grows.trans hgrows, h.threads, h.own, fun u q hq => ⟨?_, (h.has u q hq).2⟩,
    h.owed, fun d hd => ?_, fun a ha => h.one a ((hlive a).mp ha),
    fun a ha => h.none a (ha.imp_left fun hl hl' => hl ((hlive a).mpr hl'))⟩,
    fun u hu => ⟨fun _ => Iff.rfl, rfl, fun q hq => hst u q hu hq⟩, hgrows⟩
  · unfold Heap.Has
    rw [hold q (h.has u q hq).1]
    exact (h.has u q hq).1
  · obtain ⟨h1, h2⟩ := h.log d hd
    exact ⟨(hlive _).mpr h1, (hgrows.key h1).trans h2⟩

theorem fill_cell_of_ne {s : Store} {p a : Bdd} {level : UInt64} {low high : Bdd} (h : a ≠ p) :
    (fill s p level low high).heap.cell a = s.heap.cell a := Heap.modify_cell_of_ne h

theorem fill_get {s : Store} {p : Bdd} {level : UInt64} {low high : Bdd} (h : s.heap.Has p) :
    (fill s p level low high).heap.get p = Node.from' level low high := Heap.modify_get_self h

/-- Entering an insert. -/
theorem guar_fill (level : UInt64) (low high : Bdd) {s₀ : Store} {t : Nat} {p : Bdd} {w : Shared}
    (h : Inv s₀ w) (ht : ∀ q, (t, q) ∉ w.calls) (hp : w.store.heap.Has p)
    (hfresh : ¬ w.store.Live p) (hown : ∀ u, (u, p) ∉ w.calls) :
    Guar s₀ t w { w with
      store := fill w.store p level low high, calls := (t, p) :: w.calls } := by
  obtain ⟨hinv, hgrows, hlive, hst⟩ := steady_private (t := t)
    (u := fill w.store p level low high) h rfl fun a ha => by
      refine fill_cell_of_ne ?_
      rintro rfl
      rcases ha with ha | ⟨u, _, hu⟩
      · exact hfresh ha
      · exact hown u hu
  have hunder : ∀ a, a ≠ p → List.countP (fun c => c.2 == a) ((t, p) :: w.calls) = underWay w a := by
    intro a ha
    rw [List.countP_cons_of_neg]
    · rfl
    · simpa using Ne.symm ha
  refine ⟨⟨hinv, h.grows.trans hgrows, ?_, ?_, fun u q hq => ?_, fun u hu => ?_, fun d hd => ?_,
    fun a ha ha0 => ?_, fun a ha => ?_⟩, fun u hu => ⟨fun q => ?_, rfl, fun q hq => hst u q hu hq⟩,
    hgrows⟩
  · refine List.nodup_cons.mpr ⟨fun hm => ?_, h.threads⟩
    obtain ⟨⟨v, q⟩, hq, rfl⟩ := List.mem_map.mp hm
    exact ht q hq
  · refine List.nodup_cons.mpr ⟨fun hm => ?_, h.own⟩
    obtain ⟨⟨v, q⟩, hq, rfl⟩ := List.mem_map.mp hm
    exact hown v hq
  · show (w.store.heap.modify p _).Has q ∧ _
    rw [Heap.modify_has]
    rcases List.mem_cons.mp hq with he | hq
    · injection he with _ he
      rw [he]
      exact ⟨hp, fun h0 => hfresh (h.grows.live h0)⟩
    · exact h.has u q hq
  · obtain ⟨q, hq⟩ := h.owed u hu
    exact ⟨q, List.mem_cons_of_mem _ hq⟩
  · obtain ⟨h1, h2⟩ := h.log d hd
    exact ⟨(hlive _).mpr h1, (hgrows.key h1).trans h2⟩
  · have ha' := (hlive a).mp ha
    have hap : a ≠ p := fun he => hfresh (he ▸ ha')
    show wins w a + List.countP (fun c => c.2 == a) ((t, p) :: w.calls) = 1
    rw [hunder a hap]
    exact h.one a ha' ha0
  · exact h.none a (ha.imp_left fun hl hl' => hl ((hlive a).mpr hl'))
  · show (u, q) ∈ (t, p) :: w.calls ↔ _
    rw [List.mem_cons]
    refine or_iff_right fun he => hu ?_
    injection he

/-- What is known when `get_or_insert` returns. -/
structure Returned (t : Nat) (p : Bdd) (k : Key) (s₀ : Store) (r : Bdd × Bool) (w : Shared) :
    Prop where
  inv : Inv s₀ w
  call : (t, p) ∈ w.calls
  ok : InsertOk t p k r w.store

/-- Leaving an insert. -/
theorem guar_leave {s₀ : Store} {t : Nat} {p : Bdd} {k : Key} {r : Bdd × Bool} {w : Shared}
    (h : Returned t p k s₀ r w) :
    Guar s₀ t w { w with calls := w.calls.erase (t, p), log := ⟨p, k, r.1, r.2⟩ :: w.log } := by
  obtain ⟨hinv, hcall, -, howed, hl, hk, hr⟩ := h
  have hp := hinv.has t p hcall
  -- a node that was linked is counted once, now by the log
  have hwins : ∀ a, List.countP (fun d : Done => d.inserted && d.ptr == a) (⟨p, k, r.1, r.2⟩ :: w.log) =
      wins w a + if r.2 = true ∧ r.1 = a then 1 else 0 := by
    intro a
    rw [List.countP_cons]
    congr 1
    simp
  have hunder : ∀ a, List.countP (fun c => c.2 == a) (w.calls.erase (t, p)) +
      (if p = a then 1 else 0) = underWay w a := by
    intro a
    have hperm := List.perm_cons_erase hcall
    unfold underWay
    rw [hperm.countP_eq, List.countP_cons]
    simp
  refine ⟨⟨hinv.store, hinv.grows, ?_, ?_, fun u q hq => hinv.has u q (List.mem_of_mem_erase hq),
    fun u hu => ?_, fun d hd => ?_, fun a ha ha0 => ?_, fun a ha => ?_⟩,
    fun u hu => ⟨fun q => ?_, rfl, fun _ _ => .refl hinv.store⟩, .refl _⟩
  · exact hinv.threads.sublist (List.Sublist.map _ List.erase_sublist)
  · exact hinv.own.sublist (List.Sublist.map _ List.erase_sublist)
  · obtain ⟨q, hq⟩ := hinv.owed u hu
    refine ⟨q, (List.mem_erase_of_ne fun he => ?_).mpr hq⟩
    injection he with he
    subst he
    exact absurd hu (List.count_eq_zero.mp howed)
  · rcases List.mem_cons.mp hd with rfl | hd
    · exact ⟨hl, hk⟩
    · exact hinv.log d hd
  · have h1 := hinv.one a ha ha0
    have h2 := hunder a
    show List.countP _ (⟨p, k, r.1, r.2⟩ :: w.log) + List.countP _ (w.calls.erase (t, p)) = 1
    rw [hwins a]
    by_cases hb : r.2 = true
    · rw [if_pos hb] at hr
      rw [hr]
      simp only [hb, true_and]
      omega
    · rw [if_neg hb] at hr
      have hne : p ≠ a := fun he => hr (he ▸ ha)
      rw [if_neg hne] at h2
      rw [if_neg fun hc => hb hc.1]
      omega
  · show List.countP _ (⟨p, k, r.1, r.2⟩ :: w.log) = 0
    rw [hwins a, hinv.none a ha, if_neg]
    rintro ⟨hb, rfl⟩
    rw [if_pos hb] at hr
    rcases ha with ha | ha
    · exact ha hl
    · exact hp.2 (hr ▸ ha)
  · refine List.mem_erase_of_ne fun he => hu ?_
    injection he

/-! ## All interleavings -/

/-- The logic of one insert. -/
def insertLogic (t : Nat) (p : Bdd) : Logic mem Store :=
  ⟨Store.exec t, Steady t p, Inserted t p, fun _ _ => True, fun e _ => e ≠ .fault, fun _ => True⟩

theorem inserting (t : Nat) (p : Bdd) : Inserting (insertLogic t p) t p True where
  exec := rfl
  safe _ _ := trivial
  rely _ _ _ h := h
  guar _ _ _ h := h
  spin _ _ := by simp [insertLogic]
  panic _ _ := by simp [insertLogic]
  calm := Or.inl trivial

def Idle (s₀ : Store) (t : Nat) (w : Shared) : Prop :=
  Inv s₀ w ∧ (∀ q, (t, q) ∉ w.calls) ∧ w.store.set.owed.count t = 0

def Post (s₀ : Store) (t : Nat) (c : Call) (r : Bdd × Bool) (w : Shared) : Prop :=
  match c with
  | .alloc => Idle s₀ t w
  | .insert p level low high => Returned t p (Node.from' level low high).key s₀ r w

theorem Idle.stable {s₀ : Store} {t : Nat} {w w' : Shared} (h : Idle s₀ t w) (hinv : Inv s₀ w')
    (hk : Keeps t w w') : Idle s₀ t w' :=
  ⟨hinv, fun q hq => h.2.1 q ((hk.calls q).mp hq), hk.owed.trans h.2.2⟩

theorem Returned.stable {t : Nat} {p : Bdd} {k : Key} {s₀ : Store} {r : Bdd × Bool} {w w' : Shared}
    (h : Returned t p k s₀ r w) (hinv : Inv s₀ w') (hk : Keeps t w w') :
    Returned t p k s₀ r w' := by
  obtain ⟨-, hcall, -, howed, hl, hkey, hr⟩ := h
  have hst := hk.steady p hcall
  refine ⟨hinv, (hk.calls p).mpr hcall, hinv.store, hk.owed.trans howed, hst.grows.live hl,
    (hst.grows.key hl).trans hkey, ?_⟩
  by_cases hb : r.2 = true
  · rw [if_pos hb] at hr ⊢
    exact hr
  · rw [if_neg hb] at hr ⊢
    exact (hst.mine hr).1

/-- The body of an insert, in the logic of the threads. -/
theorem wp_insert {s₀ : Store} {L : Logic mem Shared} {t : Nat} {p : Bdd} {k : Key} (n : Nat)
    (hexec : L.exec = inserts.exec t) (hrely : ∀ w w', L.rely w w' → Inv s₀ w' ∧ Keeps t w w')
    (hguar : ∀ w w', Guar s₀ t w w' → L.guar w w') (hsafe : ∀ o w, L.safe o w)
    (hstops : ∀ e w, e ≠ .fault → L.stops e w) {w : Shared} (hinv : Inv s₀ w)
    (hcall : (t, p) ∈ w.calls) {i : Nat} (h : Ready t p i k w.store) :
    wp L (LockFreeSet.getOrInsert p n) (Returned t p k s₀) w := by
  refine wp_mono ?_ (wp_view (L := insertLogic t p) Shared.store
    (fun w => Inv s₀ w ∧ (t, p) ∈ w.calls) (fun w w' hI hr => ?_) (fun o w P hI hd => ?_)
    ⟨hinv, hcall⟩ (wp_getOrInsert (inserting t p) n w.store h (Or.inl trivial)))
  · exact fun r w' ⟨hok, hinv', hcall'⟩ => ⟨hinv', hcall', hok⟩
  · obtain ⟨hinv', hk⟩ := hrely w w' hr
    exact ⟨hk.steady p hI.2, hinv', (hk.calls p).mpr hI.2⟩
  · refine ⟨hsafe o w, ?_⟩
    rw [hexec]
    have h2 := hd.2
    simp only [insertLogic] at h2
    simp only [inserts]
    cases he : Store.exec t o w.store with
    | error e =>
      rw [he] at h2
      exact hstops e w h2
    | ok x =>
      rw [he] at h2
      obtain ⟨hins, hP⟩ := h2 trivial
      have hg := guar_inserted hI.1 hI.2 hins
      exact fun _ => ⟨hguar _ _ hg, hP, hg.inv, hI.2⟩

def proof (s₀ : Store) : Proof inserts fun _ => True where
  inv := Inv s₀
  rely t w w' := Inv s₀ w' ∧ Keeps t w w'
  guar := Guar s₀
  safe _ _ _ := True
  idle := Idle s₀
  post := Post s₀
  rely_refl t w h := ⟨h, .refl h.store⟩
  rely_trans _ _ _ _ h1 h2 := ⟨h2.1, h1.2.trans h2.2⟩
  guar_inv _ _ _ _ hg := hg.inv
  guar_rely _ u _ _ _ hg hne := ⟨hg.inv, hg.keeps u (Ne.symm hne)⟩
  idle_stable _ _ _ h hr := h.stable hr.1 hr.2
  post_stable _ c _ _ _ h hr := by
    cases c with
    | alloc => exact Idle.stable h hr.1 hr.2
    | insert p level low high => exact Returned.stable h hr.1 hr.2
  call t c n w hinv hidle hl _ := by
    cases c with
    | alloc =>
      have hg := guar_alloc (t := t) hinv (Node.new 0)
      exact ⟨hg, hg.inv, hidle.2.1, hidle.2.2⟩
    | insert p level low high =>
      obtain ⟨hp, hfresh, hown⟩ := hl
      have hg := guar_fill level low high hinv hidle.2.1 hp hfresh hown
      refine ⟨hg, wp_insert n rfl (fun _ _ h => h) (fun _ _ h => h) (fun _ _ => trivial)
        (fun _ _ h => h) hg.inv List.mem_cons_self ⟨hg.inv.store, ?_, ?_, ?_, rfl, ?_, hidle.2.2⟩⟩
      · exact Heap.modify_has.mpr hp
      · refine fun hlive => hfresh ?_
        obtain ⟨-, -, hl, -⟩ := steady_private (t := t)
          (u := fill w.store p level low high) hinv rfl fun a ha => by
            refine fill_cell_of_ne ?_
            rintro rfl
            rcases ha with ha | ⟨u, _, hu⟩
            · exact hfresh ha
            · exact hown u hu
        exact (hl p).mp hlive
      · show ((fill w.store p level low high).heap.get p).HashOk
        rw [fill_get hp]
        rfl
      · show ((fill w.store p level low high).heap.get p).key = _
        rw [fill_get hp]
  leave t c r w hinv hpost _ := by
    cases c with
    | alloc =>
      have hpost : Idle s₀ t w := hpost
      exact ⟨⟨hinv, fun u _ => .refl hinv.store, .refl _⟩, hpost⟩
    | insert p level low high =>
      have hret : Returned t p (Node.from' level low high).key s₀ r w := hpost
      have hg := guar_leave hret
      refine ⟨hg, hg.inv, fun q hq => ?_, hret.ok.2.1⟩
      -- the only call of `t` has left
      have hm := List.mem_of_mem_erase hq
      obtain rfl := hinv.eq_of_thread hm hret.call
      have hnd : w.calls.Nodup := List.Nodup.of_map _ hinv.own
      exact (hnd.not_mem_erase) hq

theorem inv_start {s₀ : Store} (h : s₀.Inv) (ho : s₀.set.owed = []) : Inv s₀ ⟨s₀, [], []⟩ where
  store := h
  grows := .refl s₀
  threads := .nil
  own := .nil
  has _ _ hm := absurd hm List.not_mem_nil
  owed t ht := by
    rw [show (⟨s₀, [], []⟩ : Shared).store.set.owed = [] from ho] at ht
    exact absurd ht List.not_mem_nil
  log _ hd := absurd hd List.not_mem_nil
  one _ ha ha0 := absurd ha ha0
  none _ _ := rfl

theorem idle_start {s₀ : Store} (h : s₀.Inv) (ho : s₀.set.owed = []) (t : Nat) :
    Idle s₀ t ⟨s₀, [], []⟩ := by
  refine ⟨inv_start h ho, fun _ => List.not_mem_nil, ?_⟩
  show s₀.set.owed.count t = 0
  rw [ho]
  rfl

/-- The returned calls that have inserted a node with the key `k`. -/
def winners (w : Shared) (k : Key) : List Done := w.log.filter fun d => d.inserted && d.key == k

/-- They inserted the one node with that key. -/
theorem Inv.winners_eq {s₀ : Store} {w : Shared} (h : Inv s₀ w) {a : Bdd} (ha : w.store.Live a) :
    (winners w (w.store.key a)).length = wins w a := by
  unfold winners wins
  rw [← List.countP_eq_length_filter]
  refine List.countP_congr fun d hd => ?_
  obtain ⟨hl, hk⟩ := h.log d hd
  have hiff : d.key = w.store.key a ↔ d.ptr = a := by
    rw [← hk]
    exact ⟨h.store.table.unique hl ha, fun he => by rw [he]⟩
  simp only [Bool.and_eq_true, beq_iff_eq, hiff]

/-- **Concurrent hash-consing.**  In every run from a table in order: every chain ends in null
and goes up strictly by key, and keeps its nodes in every later state; the calls that have
returned for one key answered one pointer, at most one of them `true`; and when no call is
under way, exactly one of them did where the key was not in the table at first, and
`num_entry` counts the linked nodes. -/
theorem getOrInsert_once (s₀ : Store) (h₀ : s₀.Inv) (ho : s₀.set.owed = [])
    (s : Conf mem Shared Nat Call (Bdd × Bool))
    (hs : inserts.Reach (fun _ => True) ⟨s₀, [], []⟩ s) :
    (∀ i, i < s.world.store.set.buckets.len →
      Linked.Seg Place.next s.world.store.ld (.head i) (s.world.store.chain i) 0 ∧
      (s.world.store.chain i).Pairwise fun a b => s.world.store.key a < s.world.store.key b) ∧
    (∀ s', Relation.ReflTransGen inserts.Step s s' → ∀ i, i < s.world.store.set.buckets.len →
      (s.world.store.chain i).Sublist (s'.world.store.chain i)) ∧
    (∀ d ∈ s.world.log, ∀ e ∈ s.world.log, d.key = e.key → d.ptr = e.ptr) ∧
    (∀ k, (winners s.world k).length ≤ 1) ∧
    ((∀ t, s.pc t = none) →
      (∀ d ∈ s.world.log, (∀ a, s₀.Live a → s₀.key a ≠ d.key) →
        (winners s.world d.key).length = 1) ∧
      s.world.store.set.numEntry = s.world.store.nodes.length) := by
  have hstart := inv_start h₀ ho
  have hidle : ∀ t, (proof s₀).idle t ⟨s₀, [], []⟩ := idle_start h₀ ho
  obtain ⟨hinv, hat⟩ := (proof s₀).sound hstart hidle hs
  have hinv : Inv s₀ s.world := hinv
  refine ⟨fun i hi => ?_, fun s' hrun => ?_, fun d hd e he hk => ?_, fun k => ?_, fun hpc => ?_⟩
  · rw [ld_eq]
    exact ⟨hinv.store.table.chains.seg i hi, hinv.store.table.sorted i hi⟩
  · have hg := ((proof s₀).runs hstart hidle (R := fun w w' => w.store.Grows w'.store)
      (fun w => .refl _) (fun _ _ _ h1 h2 => h1.trans h2) (fun _ _ _ _ hg => hg.grows) hs
      (hrun.lift id fun _ _ h => ⟨h, trivial⟩)).2
    exact hg.chain
  · obtain ⟨h1, h2⟩ := hinv.log d hd
    obtain ⟨h3, h4⟩ := hinv.log e he
    exact hinv.store.table.unique h1 h3 (by rw [h2, h4, hk])
  · rcases hw : winners s.world k with _ | ⟨d, l⟩
    · exact Nat.zero_le 1
    · have hd : d ∈ winners s.world k := by rw [hw]; exact List.mem_cons_self
      obtain ⟨hd, hdk⟩ := List.mem_filter.mp hd
      simp only [Bool.and_eq_true, beq_iff_eq] at hdk
      obtain ⟨hl, hk⟩ := hinv.log d hd
      rw [← hw, ← hdk.2, ← hk, hinv.winners_eq hl]
      by_cases h0 : s₀.Live d.ptr
      · rw [hinv.none _ (Or.inr h0)]
        exact Nat.zero_le 1
      · have := hinv.one _ hl h0
        omega
  · -- nobody is inside a call
    have hcalls : s.world.calls = [] := List.eq_nil_iff_forall_not_mem.mpr fun ⟨t, p⟩ hm => by
      have ht := hat t
      rw [hpc t] at ht
      exact ht.2.1 p hm
    have howed : s.world.store.set.owed = [] := List.eq_nil_iff_forall_not_mem.mpr fun t ht => by
      obtain ⟨p, hp⟩ := hinv.owed t ht
      rw [hcalls] at hp
      exact absurd hp List.not_mem_nil
    refine ⟨fun d hd hfresh => ?_, ?_⟩
    · obtain ⟨hl, hk⟩ := hinv.log d hd
      have h0 : ¬ s₀.Live d.ptr := fun h0 => hfresh _ h0 (by rw [← hinv.grows.key h0, hk])
      have hone := hinv.one _ hl h0
      rw [← hk, hinv.winners_eq hl]
      have hz : underWay s.world d.ptr = 0 := by
        unfold underWay
        rw [hcalls]
        rfl
      omega
    · have hc := hinv.store.counted
      unfold Counted at hc
      rw [howed] at hc
      exact hc

/-! ## Two threads race -/

instance (t : Nat) (c : Call) (w : Shared) : Decidable (inserts.legal t c w) :=
  match c with
  | .alloc => .isTrue trivial
  | .insert p _ _ _ =>
    decidable_of_iff ((w.store.heap.cell p).isSome = true ∧ p ∉ w.store.nodes ∧
      ∀ e ∈ w.calls, e.2 ≠ p) (by
        unfold inserts
        rw [Option.isSome_iff_exists, mem_nodes]
        exact and_congr_right' (and_congr_right' ⟨fun h u hu => h (u, p) hu rfl,
          fun h e he hp => h e.1 (hp ▸ he)⟩))

/-- The threads move as in `l`. -/
def play (l : List (Nat × Turn Call)) (s₀ : Store) :
    Option (List (Event Nat Call (Bdd × Bool)) × Conf mem Shared Nat Call (Bdd × Bool)) :=
  inserts.follow (fun t c w => decide (inserts.legal t c w)) (fun _ => true) l []
    ⟨⟨s₀, [], []⟩, fun _ => none⟩

theorem play_runs {s₀ : Store} {l : List (Nat × Turn Call)}
    {h : List (Event Nat Call (Bdd × Bool))} {s : Conf mem Shared Nat Call (Bdd × Bool)}
    (hrun : play l s₀ = some (h, s)) : inserts.Runs (fun _ => True) ⟨s₀, [], []⟩ h s :=
  System.Runs.follow .init (fun _ _ _ => of_decide_eq_true) (fun _ _ => trivial) l hrun

/-- A table of two buckets. -/
def emptyTable : Store := ⟨.empty fun _ => 0, .withCapacity 1, fun _ => 0⟩

theorem emptyTable_inv : emptyTable.Inv := Inv.of_empty (fun _ _ => rfl) rfl rfl

/-- Threads 0 and 1 come with one key.  Thread 0 finds an empty chain and sets the link of its node;
then thread 1 links its own node and returns, and the exchange of thread 0 fails. -/
def race : List (Nat × Turn Call) :=
  [(0, .call .alloc 0), (0, .go), (1, .call .alloc 0), (1, .go),
    (0, .call (.insert 1 0 0 0) 4), (1, .call (.insert 2 0 0 0) 4)] ++
  List.replicate 5 (0, .go) ++ List.replicate 8 (1, .go) ++ List.replicate 4 (0, .go)

/-- The calls and returns of the race, the latest first. -/
def raceEvents : List (Event Nat Call (Bdd × Bool)) :=
  [.ret 0 (.insert 1 0 0 0) (2, false), .ret 1 (.insert 2 0 0 0) (2, true),
    .call 1 (.insert 2 0 0 0), .call 0 (.insert 1 0 0 0),
    .ret 1 .alloc (0, false), .call 1 .alloc, .ret 0 .alloc (0, false), .call 0 .alloc]

theorem race_run : ∃ x ∈ play race emptyTable, x.1 = raceEvents ∧ x.2.world.store.nodes = [2] ∧
    x.2.pc 0 = none ∧ x.2.pc 1 = none := by
  have h : ∃ x ∈ play race emptyTable, x.1 = raceEvents ∧ x.2.world.store.nodes = [2] ∧
      (x.2.pc 0).isNone ∧ (x.2.pc 1).isNone := by
    decide +kernel
  simpa only [Option.isNone_iff_eq_none] using h

theorem race_runs : ∃ s, inserts.Runs (fun _ => True) ⟨emptyTable, [], []⟩ raceEvents s ∧
    s.world.store.nodes = [2] ∧ ∀ t, s.pc t = none := by
  obtain ⟨⟨h, s⟩, hrun, rfl, hnodes, h0, h1⟩ := race_run
  refine ⟨s, play_runs hrun, hnodes, fun t => ?_⟩
  match t with
  | 0 => exact h0
  | 1 => exact h1
  | t + 2 =>
    refine System.follow_other (fun _ _ _ => of_decide_eq_true) race (fun e he => ?_) hrun
    have hlt : ∀ e ∈ race, e.1 < 2 := by decide
    have := hlt e he
    omega

theorem getOrInsert_once_race : ∃ s : Conf mem Shared Nat Call (Bdd × Bool),
    inserts.Runs (fun _ => True) ⟨emptyTable, [], []⟩ raceEvents s ∧ (∀ t, s.pc t = none) ∧
    (∀ i, i < s.world.store.set.buckets.len →
      Linked.Seg Place.next s.world.store.ld (.head i) (s.world.store.chain i) 0 ∧
      (s.world.store.chain i).Pairwise fun a b => s.world.store.key a < s.world.store.key b) ∧
    (∀ s', Relation.ReflTransGen inserts.Step s s' → ∀ i, i < s.world.store.set.buckets.len →
      (s.world.store.chain i).Sublist (s'.world.store.chain i)) ∧
    (∀ d ∈ s.world.log, ∀ e ∈ s.world.log, d.key = e.key → d.ptr = e.ptr) ∧
    (∀ k, (winners s.world k).length ≤ 1) ∧
    (∀ d ∈ s.world.log, (∀ a, emptyTable.Live a → emptyTable.key a ≠ d.key) →
      (winners s.world d.key).length = 1) ∧
    s.world.store.set.numEntry = 1 := by
  obtain ⟨s, hs, hnodes, hidle⟩ := race_runs
  obtain ⟨h1, h2, h3, h4, h5⟩ := getOrInsert_once emptyTable emptyTable_inv rfl s hs.reach
  obtain ⟨h6, h7⟩ := h5 hidle
  rw [hnodes] at h7
  exact ⟨s, hs, hidle, h1, h2, h3, h4, h6, h7⟩

end Tobdd.SetThreads
