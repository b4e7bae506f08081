import Tobdd.Lib.Refine
import Tobdd.Retries

/-!
# `get_or_insert` is atomic, seen from outside

The unique table is a map from keys to nodes, and an insert looks its key up and puts its own
node there when there is none, in one step.  However the threads of `SetThreads` take turns, every
call answers as if it had done so at one moment while it was under way: a call that links its node at
the exchange that linked it, and the others before they return, when they know a node with their key.

    Store.find: the map that the chains hold
    Pending.step: a step of an insert changes the map where it links its node, and nowhere else
    getOrInsert_linearizes: every run is a run of the map, with the same calls and answers
-/

namespace Tobdd

open Resume Store

/-- The node with this key. -/
def Store.find (s : Store) (k : Key) : Option Bdd := s.nodes.find? fun a => s.key a = k

section
variable {s s' : Store} {a p : Bdd} {k : Key}

theorem Store.Inv.find_eq (h : s.Inv) : s.find k = some a ↔ s.Live a ∧ s.key a = k := by
  unfold Store.find
  constructor
  · intro hf
    have hkey := List.find?_some hf
    exact ⟨mem_nodes.mp (List.mem_of_find?_eq_some hf), of_decide_eq_true hkey⟩
  · rintro ⟨hl, hk⟩
    cases hf : s.nodes.find? fun a => s.key a = k with
    | none =>
      have hno := List.find?_eq_none.mp hf a (mem_nodes.mpr hl)
      exact absurd (decide_eq_true hk) hno
    | some b =>
      have hdec := List.find?_some hf
      have hkey : s.key b = k := of_decide_eq_true hdec
      have hb := mem_nodes.mp (List.mem_of_find?_eq_some hf)
      rw [h.table.unique hb hl (hkey.trans hk.symm)]

theorem Store.Inv.find_none (h : s.Inv) (hno : ∀ a, s.Live a → s.key a ≠ k) : s.find k = none := by
  cases hf : s.find k with
  | none => rfl
  | some a =>
    obtain ⟨hl, hk⟩ := h.find_eq.mp hf
    exact absurd hk (hno a hl)

/-- The map is the same where the same nodes are linked. -/
theorem find_congr (h : s.Inv) (h' : s'.Inv) (hlive : ∀ a, s'.Live a ↔ s.Live a)
    (hkey : ∀ a, s.Live a → s'.key a = s.key a) : s'.find = s.find := by
  ext k a
  rw [h'.find_eq, h.find_eq, hlive]
  constructor
  · rintro ⟨hl, hk⟩
    exact ⟨hl, (hkey a hl).symm.trans hk⟩
  · rintro ⟨hl, hk⟩
    exact ⟨hl, (hkey a hl).trans hk⟩

/-- One node more. -/
theorem find_insert (h : s.Inv) (h' : s'.Inv) (hg : Grows s s') (hp : s'.Live p) (hk : s'.key p = k)
    (hnew : ∀ a, s'.Live a → s.Live a ∨ a = p) :
    s'.find = Function.update s.find k (some p) := by
  ext k' a
  rw [h'.find_eq]
  by_cases hk' : k' = k
  · subst hk'
    rw [Function.update_self]
    constructor
    · rintro ⟨hl, hka⟩
      rw [h'.table.unique hl hp (hka.trans hk.symm)]
    · intro ha
      obtain rfl := Option.some.inj ha
      exact ⟨hp, hk⟩
  · rw [Function.update_of_ne hk', h.find_eq]
    constructor
    · rintro ⟨hl, hka⟩
      rcases hnew a hl with hold | rfl
      · exact ⟨hold, (hg.key hold).symm.trans hka⟩
      · exact absurd (hka.symm.trans hk) hk'
    · rintro ⟨hl, hka⟩
      exact ⟨hg.live hl, (hg.key hl).trans hka⟩

end

namespace SetThreads

/-! ## The map -/

/-- `get_or_insert` in one step: the node that is there, or the one that is put there. -/
inductive Visit where
  | getOrInsert (k : Key) (p : Bdd)

def visits : Sig where
  Op := Visit
  Res _ := Bdd × Bool

/-- The same calls on a map. -/
def atomic : System visits (Key → Option Bdd) Nat Call (Bdd × Bool) where
  exec _ o v :=
    match o with
    | .getOrInsert k p =>
      match v k with
      | some a => .ok ((a, false), v)
      | none => .ok ((p, true), Function.update v k (some p))
  code _ c _ :=
    match c with
    | .alloc => return (0, false)
    | .insert p level low high =>
      Prog.op (S := visits) (.getOrInsert (Node.from' level low high).key p)
  legal _ c v :=
    match c with
    | .alloc => True
    | .insert p _ _ _ => ∀ k, v k ≠ some p
  enter _ _ v := v
  leave _ _ _ v := v

/-! ## One insert -/

section
variable {s₀ : Store} {t : Nat} {p : Bdd} {k : Key} {w w' : Shared} {q : Prog visits (Bdd × Bool)}

/-- What an access of `get_or_insert` leaves as it is. -/
structure Sought (w w' : Shared) : Prop where
  calls : w'.calls = w.calls
  log : w'.log = w.log
  key : ∀ a, w'.store.key a = w.store.key a

theorem exec_sought {o : Access} {r : mem.Res o} (ho : o.Seeks)
    (hex : inserts.exec t o w = .ok (r, w')) : Sought w w' := by
  simp only [inserts] at hex
  cases he : Store.exec t o w.store with
  | error e =>
    rw [he] at hex
    cases hex
  | ok y =>
    rw [he] at hex
    obtain ⟨rfl, rfl⟩ := Prod.mk.inj (Except.ok.inj hex)
    exact ⟨rfl, rfl, fun a => ((exec_seeks ho he).1 a).key⟩

/-- A step of thread `t` links no node but the one that `t` came with. -/
theorem Guar.new (hg : Guar s₀ t w w') (hi : Inv s₀ w) (hs : Sought w w') (hp : (t, p) ∈ w.calls)
    {a : Bdd} (ha : w'.store.Live a) : w.store.Live a ∨ a = p := by
  by_cases hl : w.store.Live a
  · exact Or.inl hl
  · -- it is a new node, so a call under way came with it
    have h0 : ¬ s₀.Live a := fun h0 => hl (hi.grows.live h0)
    have hone := hg.inv.one a ha h0
    have hwins : wins w' a = 0 := by
      unfold wins
      rw [hs.log]
      exact hi.none a (Or.inl hl)
    have hpos : 0 < underWay w' a := by omega
    obtain ⟨⟨u, b⟩, hu, hb⟩ := List.countP_pos_iff.mp hpos
    obtain rfl : b = a := by simpa using hb
    rw [hs.calls] at hu
    by_cases hut : u = t
    · subst hut
      exact Or.inr (hi.eq_of_thread hu hp)
    · exact absurd ha ((hg.keeps u hut).steady b hu |>.mine hl).1

/-- Where the insert of `p` is, seen from the map: before its visit, or after it. -/
structure Pending (s₀ : Store) (t : Nat) (p : Bdd) (k : Key) (q : Prog visits (Bdd × Bool))
    (w : Shared) : Prop where
  inv : Inv s₀ w
  call : (t, p) ∈ w.calls
  key : w.store.key p = k
  left : (¬ w.store.Live p ∧ q = Prog.op (S := visits) (.getOrInsert k p)) ∨
    (w.store.Live p ∧ q = .ret (p, true))

theorem Pending.stable (h : Pending s₀ t p k q w) (hi : Inv s₀ w') (hk : Keeps t w w') :
    Pending s₀ t p k q w' := by
  have hst := hk.steady p h.call
  refine ⟨hi, (hk.calls p).mpr h.call, ?_, ?_⟩
  · by_cases hl : w.store.Live p
    · exact (hst.grows.key hl).trans h.key
    · rw [← h.key]
      unfold Store.key Heap.get
      rw [(hst.mine hl).2]
  · rcases h.left with ⟨hl, hq⟩ | ⟨hl, hq⟩
    · exact Or.inl ⟨(hst.mine hl).1, hq⟩
    · exact Or.inr ⟨hst.grows.live hl, hq⟩

/-- The map changes where the node is linked. -/
theorem Pending.step (h : Pending s₀ t p k q w) (hg : Guar s₀ t w w') (hs : Sought w w') :
    ∃ q', Goes (atomic.exec t) (fun _ => True) q w.store.find q' w'.store.find ∧
      Pending s₀ t p k q' w' := by
  have hcall : (t, p) ∈ w'.calls := hs.calls ▸ h.call
  have hkey : w'.store.key p = k := (hs.key p).trans h.key
  have hnew := fun a => hg.new h.inv hs h.call (a := a)
  by_cases hl' : w'.store.Live p
  · by_cases hl : w.store.Live p
    · have hsame : w'.store.find = w.store.find := by
        refine find_congr h.inv.store hg.inv.store (fun a => ⟨fun ha => ?_, hg.grows.live⟩)
          fun a _ => hs.key a
        rcases hnew a ha with hold | rfl
        · exact hold
        · exact hl
      obtain ⟨-, hq⟩ := h.left.resolve_left fun hno => hno.1 hl
      rw [hsame]
      exact ⟨q, .refl .., hg.inv, hcall, hkey, Or.inr ⟨hl', hq⟩⟩
    · -- the exchange that links `p`
      obtain ⟨-, rfl⟩ := h.left.resolve_right fun hno => hl hno.1
      have hnone : w.store.find k = none := by
        refine h.inv.store.find_none fun a ha hak => hl ?_
        have hak' : w'.store.key a = w'.store.key p := by rw [hs.key a, hak, hkey]
        rwa [hg.inv.store.table.unique (hg.grows.live ha) hl' hak'] at ha
      have hmap := find_insert h.inv.store hg.inv.store hg.grows hl' hkey hnew
      have hex : atomic.exec t (.getOrInsert k p) w.store.find = .ok ((p, true), w'.store.find) := by
        simp only [atomic, hnone, hmap]
      exact ⟨_, .one hex trivial, hg.inv, hcall, hkey, Or.inr ⟨hl', rfl⟩⟩
  · have hl : ¬ w.store.Live p := fun hl => hl' (hg.grows.live hl)
    have hsame : w'.store.find = w.store.find := by
      refine find_congr h.inv.store hg.inv.store (fun a => ⟨fun ha => ?_, hg.grows.live⟩)
        fun a _ => hs.key a
      rcases hnew a ha with hold | rfl
      · exact hold
      · exact absurd ha hl'
    obtain ⟨-, hq⟩ := h.left.resolve_right fun hno => hl hno.1
    rw [hsame]
    exact ⟨q, .refl .., hg.inv, hcall, hkey, Or.inl ⟨hl', hq⟩⟩

/-- A call that has not linked its node has found another one with its key. -/
theorem Pending.finish {r : Bdd × Bool} (h : Pending s₀ t p k q w) (hr : Returned t p k s₀ r w) :
    Goes (atomic.exec t) (fun _ => True) q w.store.find (.ret r) w.store.find := by
  obtain ⟨-, -, hlive, hkey, hres⟩ := hr.ok
  rcases h.left with ⟨hl, rfl⟩ | ⟨hl, rfl⟩
  · have hno : r.2 = false := by
      by_contra hyes
      rw [Bool.not_eq_false] at hyes
      rw [if_pos hyes] at hres
      rw [hres] at hlive
      exact hl hlive
    have hfind : w.store.find k = some r.1 := h.inv.store.find_eq.mpr ⟨hlive, hkey⟩
    have hex : atomic.exec t (.getOrInsert k p) w.store.find = .ok (r, w.store.find) := by
      simp only [atomic, hfind]
      rw [← hno]
    exact .one hex trivial
  · have hyes : r.2 = true := by
      by_contra hno
      rw [if_neg hno] at hres
      exact hres hl
    rw [if_pos hyes] at hres
    have hr : r = (p, true) := Prod.ext hres hyes
    rw [hr]
    exact .refl ..

end

/-! ## Every run -/

/-- Entering a call leaves the map alone. -/
theorem find_enter {s₀ : Store} {t : Nat} {c : Call} {w : Shared} (hi : Inv s₀ w)
    (hl : inserts.legal t c w) : (inserts.enter t c w).store.find = w.store.find ∧
      ∀ a, (inserts.enter t c w).store.Live a ↔ w.store.Live a := by
  cases c with
  | alloc =>
    have hold : ∀ a, w.store.Live a ∨ (∃ v, v ≠ t ∧ (v, a) ∈ w.calls) →
        (w.store.heap.alloc (Node.new 0)).cell a = w.store.heap.cell a := by
      rintro a (ha | ⟨u, -, hu⟩)
      · exact Heap.alloc_cell_of_ne (hi.store.table.has ha).ne_fresh
      · exact Heap.alloc_cell_of_ne (hi.has u a hu).1.ne_fresh
    obtain ⟨hinv, hgrows, hlive, -⟩ := steady_private (t := t)
      (u := { w.store with heap := w.store.heap.alloc (Node.new 0) }) hi rfl hold
    exact ⟨find_congr hi.store hinv hlive fun a ha => hgrows.key ha, hlive⟩
  | insert p level low high =>
    obtain ⟨-, hfresh, hown⟩ := hl
    have hold : ∀ a, w.store.Live a ∨ (∃ v, v ≠ t ∧ (v, a) ∈ w.calls) →
        (fill w.store p level low high).heap.cell a = w.store.heap.cell a := by
      intro a ha
      refine fill_cell_of_ne ?_
      rintro rfl
      rcases ha with ha | ⟨u, -, hu⟩
      · exact hfresh ha
      · exact hown u hu
    obtain ⟨hinv, hgrows, hlive, -⟩ := steady_private (t := t)
      (u := fill w.store p level low high) hi rfl hold
    exact ⟨find_congr hi.store hinv hlive fun a ha => hgrows.key ha, hlive⟩

def Left (s₀ : Store) (t : Nat) (c : Call) (r : Bdd × Bool) (q : Prog visits (Bdd × Bool))
    (w : Shared) : Prop :=
  Post s₀ t c r w ∧
    match c with
    | .alloc => q = .ret r
    | .insert p level low high => Pending s₀ t p (Node.from' level low high).key q w

def refinement (s₀ : Store) : Refinement inserts (fun _ => True) atomic fun _ => True where
  abs w := w.store.find
  inv := Inv s₀
  rely t w w' := Inv s₀ w' ∧ Keeps t w w'
  guar := Guar s₀
  safe _ _ _ := True
  stops e := e ≠ .fault
  idle := Idle s₀
  post := Left s₀
  rely_refl := (proof s₀).rely_refl
  rely_trans := (proof s₀).rely_trans
  guar_inv := (proof s₀).guar_inv
  guar_rely := (proof s₀).guar_rely
  idle_stable := (proof s₀).idle_stable
  post_stable t c r q w w' h hr := by
    refine ⟨(proof s₀).post_stable t c r w w' h.1 hr, ?_⟩
    cases c with
    | alloc => exact h.2
    | insert p level low high => exact Pending.stable h.2 hr.1 hr.2
  call t c n w hi hidle hl _ := by
    obtain ⟨hg, hwp⟩ := (proof s₀).call t c n w hi hidle hl trivial
    obtain ⟨hfind, hlive⟩ := find_enter hi hl
    refine ⟨hg, ?_, hfind, trivial, 0, ?_⟩
    · cases c with
      | alloc => trivial
      | insert p level low high => exact fun k hk => hl.2.1 (hi.store.find_eq.mp hk).1
    · cases c with
      | alloc => exact ⟨hwp, rfl⟩
      | insert p level low high =>
        have hsought := wp_also (G := Sought) (fun o w r w' ho hex _ => exec_sought ho hex)
          (LockFreeSet.seeks_getOrInsert p n) hwp
        have hstart : Pending s₀ t p (Node.from' level low high).key
            (Prog.op (S := visits) (.getOrInsert (Node.from' level low high).key p))
            (inserts.enter t (.insert p level low high) w) := by
          refine ⟨hg.inv, List.mem_cons_self, ?_, Or.inl ⟨fun h => hl.2.1 ((hlive p).mp h), rfl⟩⟩
          show ((fill w.store p level low high).heap.get p).key = _
          rw [fill_get hl.1]
        refine sim_of_wp (J := Pending s₀ t p (Node.from' level low high).key) rfl ?_ ?_ ?_ ?_ ?_
          ?_ ?_ hsought hstart
        · exact fun _ _ hr => hr
        · exact fun _ _ hg => hg.1
        · exact fun _ _ _ => trivial
        · exact fun _ _ he => he
        · exact fun _ _ => trivial
        · exact fun q w w' h hr => h.stable hr.1 hr.2
        · exact fun q w w' h hg => h.step hg.1 hg.2
  leave t c r q w hi h _ := by
    obtain ⟨hg, hidle⟩ := (proof s₀).leave t c r w hi h.1 trivial
    refine ⟨hg, hidle, ?_, ?_, trivial⟩
    · cases c with
      | alloc =>
        obtain rfl := h.2
        exact .refl ..
      | insert p level low high => exact Pending.finish h.2 h.1
    · cases c <;> rfl

/-- **Atomicity of `get_or_insert`.**  Threads insert into a table in order.  Every run is matched by
one of the map, in which each insert takes effect in one step between its call and its return: the
calls and returns are the same, in the same order and with the same answers, the map is what the
chains hold, and the same threads are inside calls. -/
theorem getOrInsert_linearizes (s₀ : Store) (h₀ : s₀.Inv) (ho : s₀.set.owed = [])
    (h : List (Event Nat Call (Bdd × Bool))) (s : Conf mem Shared Nat Call (Bdd × Bool))
    (hs : inserts.Runs (fun _ => True) ⟨s₀, [], []⟩ h s) :
    ∃ s', atomic.Runs (fun _ => True) s₀.find h s' ∧ s'.world = s.world.store.find ∧
      ∀ t, (s.pc t).map Prod.fst = (s'.pc t).map Prod.fst := by
  obtain ⟨s', hs', hj⟩ := (refinement s₀).sound (inv_start h₀ ho) (idle_start h₀ ho) hs
  refine ⟨s', hs', hj.world, fun t => ?_⟩
  have ht := hj.pc t
  generalize s.pc t = pc at ht
  generalize s'.pc t = pc' at ht
  cases ht with
  | outside _ => rfl
  | inside _ => rfl

theorem getOrInsert_linearizes_race : ∃ (s : Conf mem Shared Nat Call (Bdd × Bool))
    (s' : Conf visits (Key → Option Bdd) Nat Call (Bdd × Bool)),
    inserts.Runs (fun _ => True) ⟨emptyTable, [], []⟩ raceEvents s ∧
    atomic.Runs (fun _ => True) emptyTable.find raceEvents s' ∧
    s'.world = s.world.store.find ∧ ∀ t, (s.pc t).map Prod.fst = (s'.pc t).map Prod.fst := by
  obtain ⟨s, hs, -⟩ := race_runs
  obtain ⟨s', h⟩ := getOrInsert_linearizes emptyTable emptyTable_inv rfl _ s hs
  exact ⟨s, s', hs, h⟩

end SetThreads

end Tobdd
