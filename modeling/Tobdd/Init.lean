import Tobdd.Calls

/-!
# init

`Stocked b D c s`: since the store `b`, the table has got the `c` nodes that `D` describes,
in new memory, and nothing else has changed.  Allocating, inserting and referencing a node
keep that (`wp_alloc`, `wp_stock`, `wp_ref`), for as long as the keys are different.

    run_init: `init` makes a manager in order, apart from those that were there; the handles
              `vars[i]` and `nvars[i]` stand for the variable `i` and its negation
-/

namespace Tobdd

open Resume Diagram

namespace Store

/-- The table has the `c` nodes that `D` describes, all new since `b`. -/
structure Stocked (b : Store) (D : Bdd → Option Node) (c : Nat) (s : Store) : Prop where
  inv : s.Inv
  owed : s.set.owed = []
  len : s.set.buckets.len = b.set.buckets.len
  sizeExp : s.set.sizeExp = b.set.sizeExp
  count : s.set.numEntry = c
  live : ∀ a, s.Live a ↔ ∃ n, D a = some n
  node : ∀ a n, D a = some n → n.Relinked (s.heap.get a)
  old : ∀ a, b.heap.Has a → s.heap.cell a = b.heap.cell a
  new : ∀ a n, D a = some n → ¬ b.heap.Has a
  rest : ∀ a, ¬ b.heap.Has a → D a = none → (s.heap.get a).refCnt = 0
  freeId : s.freeId = b.freeId
  frees : s.heap.frees = b.heap.frees

/-- The new node at `p` is not in the table yet. -/
structure Loose (b : Store) (D : Bdd → Option Node) (s : Store) (p : Bdd) (n : Node) : Prop where
  cell : s.heap.cell p = some n
  out : D p = none
  new : ¬ b.heap.Has p

variable {b s : Store} {D : Bdd → Option Node} {c t : Nat} {tol bad : Prop} {α : Type} {p : Bdd}
  {n : Node}

/-- Thread `t` makes a manager. -/
def founding (t : Nat) (tol bad : Prop) : Logic mem Store :=
  .alone (Store.exec t) (fun _ _ => True) fun e _ => e = .spin ∧ tol ∨ e = .panic ∧ bad

theorem Stocked.sized (h : Stocked b D c s) : s.Sized ↔ b.Sized := by
  unfold Sized
  rw [h.len, h.sizeExp]

theorem Stocked.has (h : Stocked b D c s) {a : Bdd} (ha : D a = some n) : s.heap.Has a :=
  h.inv.table.has ((h.live a).mpr ⟨n, ha⟩)

/-- One more node, or a node changed: what is not stored then was not stored before. -/
theorem update_none {a : Bdd} (h : Function.update D p (some n) a = none) : a ≠ p ∧ D a = none := by
  have hap : a ≠ p := by
    rintro rfl
    rw [Function.update_self] at h
    cases h
  rw [Function.update_of_ne hap] at h
  exact ⟨hap, h⟩

theorem Stocked.new_update (h : Stocked b D c s) (hp : ¬ b.heap.Has p) {a : Bdd} {m : Node}
    (hm : Function.update D p (some n) a = some m) : ¬ b.heap.Has a := by
  by_cases hap : a = p
  · rw [hap]
    exact hp
  · rw [Function.update_of_ne hap] at hm
    exact h.new a m hm

theorem wp_found {o : Access} {k : mem.Res o → Prog mem α} {Q : α → Store → Prop} {r : mem.Res o}
    {s' : Store} (he : Store.exec t o s = .ok (r, s')) (h : wp (founding t tol bad) (k r) Q s') :
    wp (founding t tol bad) (acc o >>= k) Q s := by
  unfold founding at h ⊢
  exact wp_answer he trivial h

theorem wp_alloc {k : Bdd → Prog mem α} {Q : α → Store → Prop} (h : Stocked b D c s)
    (h0 : n.refCnt = 0)
    (hk : ∀ p s', Stocked b D c s' → Loose b D s' p n →
      (∀ q m, Loose b D s q m → Loose b D s' q m ∧ q ≠ p) → wp (founding t tol bad) (k p) Q s') :
    wp (founding t tol bad) (acc (.alloc n) >>= k) Q s := by
  refine wp_found (o := .alloc n) (r := s.heap.fresh) rfl ?_
  have hcell : ∀ a, s.heap.Has a → (s.heap.alloc n).cell a = s.heap.cell a :=
    fun a ha => Heap.alloc_cell_of_ne ha.ne_fresh
  have hold : ∀ a, b.heap.Has a → s.heap.Has a := fun a ha => by
    unfold Heap.Has
    rw [h.old a ha]
    exact ha
  have hfresh : D s.heap.fresh = none := by
    cases hd : D s.heap.fresh with
    | none => rfl
    | some m => exact absurd (h.has hd) s.heap.fresh_not_has
  obtain ⟨hinv, hch⟩ := h.inv.congr (u := { s with heap := s.heap.alloc n }) rfl rfl rfl rfl
    fun a ha => by
      have hha := h.inv.table.has ha
      unfold Heap.Has Heap.get
      rw [hcell a hha]
      exact ⟨hha, .refl _⟩
  have hlive := live_congr (s := s) (u := { s with heap := s.heap.alloc n }) rfl hch
  refine hk _ _ ⟨hinv, h.owed, h.len, h.sizeExp, h.count, fun a => (hlive a).trans (h.live a),
    fun a m hm => ?_, fun a ha => ?_, h.new, fun a ha hd => ?_, h.freeId, h.frees⟩
    ⟨Heap.alloc_cell_self, hfresh, fun hb => s.heap.fresh_not_has (hold _ hb)⟩ fun q m hq => ?_
  · have := h.node a m hm
    unfold Heap.get at this ⊢
    rwa [hcell a (h.has hm)]
  · exact (hcell a (hold a ha)).trans (h.old a ha)
  · by_cases haf : a = s.heap.fresh
    · subst haf
      rw [Heap.get_of_cell Heap.alloc_cell_self]
      exact h0
    · have := h.rest a ha hd
      unfold Heap.get at this ⊢
      rwa [Heap.alloc_cell_of_ne haf]
  · have hne := Heap.Has.ne_fresh ⟨m, hq.cell⟩
    exact ⟨⟨(Heap.alloc_cell_of_ne hne).trans hq.cell, hq.out, hq.new⟩, hne⟩

theorem wp_stock {k : Bdd × Bool → Prog mem α} {Q : α → Store → Prop} {fuel : Nat}
    (h : Stocked b D c s) (hp : Loose b D s p n) (hn : n.HashOk)
    (hkey : ∀ a m, D a = some m → m.key ≠ n.key) (hbad : ¬ b.Sized → bad)
    (hfuel : tol ∨ c + 1 < fuel)
    (hk : ∀ x s', Stocked b (Function.update D p (some n)) (c + 1) s' →
      (∀ q m, q ≠ p → Loose b D s q m → Loose b (Function.update D p (some n)) s' q m) →
        wp (founding t tol bad) (k x) Q s') :
    wp (founding t tol bad) (LockFreeSet.getOrInsert p fuel >>= k) Q s := by
  have hget : s.heap.get p = n := Heap.get_of_cell hp.cell
  have hnl : ¬ s.Live p := fun hl => by
    obtain ⟨m, hm⟩ := (h.live p).mp hl
    rw [hp.out] at hm
    cases hm
  have hready : Ready t p (maskIdx n.hash s.set.sizeExp) n.key s :=
    ⟨h.inv, ⟨n, hp.cell⟩, hnl, by rw [hget]; exact hn, by rw [hget],
      by rw [← hget]; rfl, by rw [h.owed]; rfl⟩
  have hlen : s.nodes.length = c := by
    have := h.inv.counted
    unfold Counted at this
    rw [h.owed, h.count] at this
    exact this.symm
  have hshort : tol ∨ Short s (maskIdx n.hash s.set.sizeExp) fuel := by
    refine hfuel.imp_right fun hf => ⟨by omega, fun hi => ?_⟩
    have hsub := ((h.inv.table.chains.nodup hi).subperm fun a ha => mem_nodes.mpr ⟨_, hi, ha⟩).length_le
    omega
  refine wp_seq (wp_of_run (Q := fun x s' => InsertOk t p n.key x s' ∧ Inserted t p s s') ?_) ?_
  · rcases run_getOrInsert hready hshort with ⟨x, s', hr, hok, hins⟩ | ⟨e, hr, he⟩
    · exact Or.inl ⟨x, s', hr, hok, hins⟩
    · exact Or.inr ⟨e, hr, he.imp_right (And.imp_right fun hs => hbad fun hb => hs (h.sized.mpr hb))⟩
  rintro ⟨r, i⟩ s' ⟨⟨hinv, howed, hr, hrk, hi⟩, hins⟩
  -- the key is new, so the node was inserted
  have hpl : s'.Live p := by
    by_contra hpl
    have hrp : r ≠ p := fun hrp => hpl (hrp ▸ hr)
    have hrs := (hins.new r hr).resolve_right hrp
    obtain ⟨m, hm⟩ := (h.live r).mp hrs
    refine hkey r m hm ?_
    rw [← hrk, hins.grows.key hrs]
    exact (h.node r m hm).key.symm
  have hold : ∀ a, b.heap.Has a → ¬ s.Live a := fun a ha hl => by
    obtain ⟨m, hm⟩ := (h.live a).mp hl
    exact h.new a m hm ha
  have howed' : s'.set.owed = [] := List.eq_nil_iff_forall_not_mem.mpr fun u hu => by
    by_cases hut : u = t
    · rw [hut] at hu
      exact absurd hu (List.count_eq_zero.mp howed)
    · have hc := hins.owed u hut
      rw [h.owed] at hc
      exact absurd hu (List.count_eq_zero.mp hc)
  have hlive : ∀ a, s'.Live a ↔ s.Live a ∨ a = p := fun a =>
    ⟨hins.new a, fun ha => ha.elim hins.grows.live fun ha => ha ▸ hpl⟩
  have hnum : s'.set.numEntry = c + 1 := by
    have hcount := hinv.counted
    have hperm : s'.nodes.Perm (p :: s.nodes) := by
      refine (List.perm_ext_iff_of_nodup (nodes_nodup hinv.table.chains) ?_).mpr fun a => ?_
      · exact List.nodup_cons.mpr ⟨fun hm => hnl (mem_nodes.mp hm), nodes_nodup h.inv.table.chains⟩
      · rw [mem_nodes, hlive, List.mem_cons, mem_nodes]
        exact Or.comm
    unfold Counted at hcount
    rw [howed', hperm.length_eq, List.length_cons, hlen] at hcount
    exact hcount
  refine hk _ s' ⟨hinv, howed', hins.grows.len.trans h.len, hins.grows.sizeExp.trans h.sizeExp,
    hnum, fun a => ?_, fun a m hm => ?_, fun a ha => ?_, fun a m hm => ?_, fun a ha hd => ?_,
    hins.freeId.trans h.freeId, hins.frees.trans h.frees⟩ fun q m hqp hq => ⟨?_, ?_, hq.new⟩
  · rw [hlive, h.live]
    by_cases hap : a = p
    · subst hap
      rw [Function.update_self]
      exact ⟨fun _ => ⟨n, rfl⟩, fun _ => Or.inr rfl⟩
    · rw [Function.update_of_ne hap]
      exact or_iff_left hap
  · by_cases hap : a = p
    · subst hap
      rw [Function.update_self] at hm
      obtain rfl := Option.some.inj hm
      rw [← hget]
      exact hins.scratch
    · rw [Function.update_of_ne hap] at hm
      exact (h.node a m hm).trans (hins.grows.node a ((h.live a).mpr ⟨m, hm⟩))
  · exact (hins.cell a (hold a ha) fun hap => hp.new (hap ▸ ha)).trans (h.old a ha)
  · exact h.new_update hp.new hm
  · obtain ⟨hap, hd⟩ := update_none hd
    have hal : ¬ s.Live a := fun hl => by
      obtain ⟨m, hm⟩ := (h.live a).mp hl
      rw [hd] at hm
      cases hm
    have := h.rest a ha hd
    unfold Heap.get at this ⊢
    rwa [hins.cell a hal hap]
  · refine (hins.cell q (fun hl => ?_) hqp).trans hq.cell
    obtain ⟨m', hm'⟩ := (h.live q).mp hl
    rw [hq.out] at hm'
    cases hm'
  · rw [Function.update_of_ne hqp]
    exact hq.out

theorem wp_ref {k : Unit → Prog mem α} {Q : α → Store → Prop} (h : Stocked b D c s)
    (hp : D p = some n)
    (hk : ∀ s', Stocked b (Function.update D p (some { n with refCnt := n.refCnt + 1 })) c s' →
      wp (founding t tol bad) (k ()) Q s') :
    wp (founding t tol bad) (acc (.fetchAdd p) >>= k) Q s := by
  have hhp := h.has hp
  refine wp_found (o := .fetchAdd p) (exec_edit hhp) ?_
  have hself : (s.heap.modify p fun n => { n with refCnt := n.refCnt + 1 }).get p =
      { s.heap.get p with refCnt := (s.heap.get p).refCnt + 1 } := Heap.modify_get_self hhp
  have hget : ∀ a, a ≠ p → (s.heap.modify p fun n => { n with refCnt := n.refCnt + 1 }).get a =
      s.heap.get a := fun a ha => Heap.modify_get_of_ne ha
  have hre : ∀ a, (s.heap.get a).Recounted
      ((s.heap.modify p fun n => { n with refCnt := n.refCnt + 1 }).get a) := by
    intro a
    by_cases hap : a = p
    · rw [hap, hself]
      exact ⟨rfl, rfl, rfl, rfl, rfl⟩
    · rw [hget a hap]
      exact .refl _
  obtain ⟨hinv, hch⟩ := h.inv.congr (u := { s with
    heap := s.heap.modify p fun n => { n with refCnt := n.refCnt + 1 } }) rfl rfl rfl rfl
    fun a ha => ⟨Heap.modify_has.mpr (h.inv.table.has ha), hre a⟩
  have hlive := live_congr (s := s) (u := { s with
    heap := s.heap.modify p fun n => { n with refCnt := n.refCnt + 1 } }) rfl hch
  refine hk _ ⟨hinv, h.owed, h.len, h.sizeExp, h.count, fun a => ?_, fun a m hm => ?_,
    fun a ha => ?_, fun a m hm => ?_, fun a ha hd => ?_, h.freeId, h.frees⟩
  · rw [hlive, h.live]
    by_cases hap : a = p
    · subst hap
      rw [Function.update_self]
      exact ⟨fun _ => ⟨_, rfl⟩, fun _ => ⟨n, hp⟩⟩
    · rw [Function.update_of_ne hap]
  · by_cases hap : a = p
    · subst hap
      rw [Function.update_self] at hm
      obtain rfl := Option.some.inj hm
      obtain ⟨h1, h2, h3, h4, h5⟩ := h.node a n hp
      show Node.Relinked _ ((s.heap.modify a _).get a)
      rw [hself]
      exact ⟨congrArg (· + 1) h1, h2, h3, h4, h5⟩
    · rw [Function.update_of_ne hap] at hm
      show Node.Relinked _ ((s.heap.modify p _).get a)
      rw [hget a hap]
      exact h.node a m hm
  · have hap : a ≠ p := fun hap => h.new p n hp (hap ▸ ha)
    exact (Heap.modify_cell_of_ne hap).trans (h.old a ha)
  · exact h.new_update (h.new p n hp) hm
  · obtain ⟨hap, hd⟩ := update_none hd
    show ((s.heap.modify p _).get a).refCnt = 0
    rw [hget a hap]
    exact h.rest a ha hd

/-- A table without nodes. -/
theorem Stocked.start {len : Nat} (hb : b.set.buckets = Slice.replicate len 0)
    (hnum : b.set.numEntry = 0) (howed : b.set.owed = []) : Stocked b (fun _ => none) 0 b := by
  have hc : Chains b.set.buckets b.heap fun _ => [] := by
    rw [hb]
    exact ⟨fun _ _ => rfl, fun i _ a ha => absurd ha List.not_mem_nil,
      fun i j _ _ a ha => absurd ha List.not_mem_nil⟩
  have ht : b.Table :=
    Table.of_chains hc (fun _ _ => .nil) fun i _ a ha => absurd ha List.not_mem_nil
  have hl : ∀ a, ¬ b.Live a := by
    rintro a ⟨i, hi, ha⟩
    rw [chain_eq hc hi] at ha
    cases ha
  refine ⟨⟨ht, ?_⟩, howed, rfl, rfl, hnum, fun a => ⟨fun ha => absurd ha (hl a), ?_⟩,
    (fun a n ha => by cases ha), fun _ _ => rfl,
    (fun a n ha => by cases ha), fun a ha _ => ?_, rfl, rfl⟩
  · have : b.nodes = [] := List.eq_nil_iff_forall_not_mem.mpr fun a ha => hl a (mem_nodes.mp ha)
    unfold Counted
    rw [this, hnum, howed]
    rfl
  · rintro ⟨n, hn⟩
    cases hn
  · rw [Heap.get_of_not_has ha]
    rfl

end Store

/-- The nodes that `init` makes and references once. -/
def Consts.Kept (g : Consts) (a : Bdd) : Prop :=
  a = g.trueId ∨ a = g.falseId ∨ a ∈ g.vars ∨ a ∈ g.nvars

instance (g : Consts) (a : Bdd) : Decidable (g.Kept a) := inferInstanceAs (Decidable (_ ∨ _))

/-- `n`, referenced once more. -/
def Node.held (n : Node) : Node := { n with refCnt := n.refCnt + 1 }

/-- What the table of a new manager has when the nodes of the variables below `i` are in. -/
structure Vars (trueId falseId : Bdd) (i : Nat) (vs : List Bdd × List Bdd) (D : Bdd → Option Node) :
    Prop where
  top : D trueId = some (Node.new 1).held
  bot : D falseId = some (Node.new 0).held
  only : ∀ a m, D a = some m → a = trueId ∨ a = falseId ∨ ∃ j < i,
    m = (Node.from' (UInt64.ofNat j) falseId trueId).held ∨
    m = (Node.from' (UInt64.ofNat j) trueId falseId).held
  mem : ∀ a m, D a = some m → a = trueId ∨ a = falseId ∨ a ∈ vs.1 ∨ a ∈ vs.2
  len : vs.1.length = i
  nlen : vs.2.length = i
  var : ∀ j v, vs.1[j]? = some v → D v = some (Node.from' (UInt64.ofNat j) falseId trueId).held
  nvar : ∀ j v, vs.2[j]? = some v → D v = some (Node.from' (UInt64.ofNat j) trueId falseId).held

section
variable {D : Bdd → Option Node} {trueId falseId : Bdd} {i : Nat} {vs : List Bdd × List Bdd}

theorem Vars.ne (h : Vars trueId falseId i vs D) : trueId ≠ falseId := by
  intro he
  have h1 := h.top
  rw [he, h.bot] at h1
  exact absurd (congrArg Node.level (Option.some.inj h1)) (by decide)

/-- The keys of the next variable are new. -/
theorem Vars.key_ne (h : Vars trueId falseId i vs D) (hi : i < 2 ^ 60) (ht : trueId ≠ 0)
    (hf : falseId ≠ 0) {low high : Bdd} (hl : low ≠ 0) {a : Bdd} {m : Node} (ha : D a = some m) :
    m.key ≠ (Node.from' (UInt64.ofNat i) low high).key := by
  intro hk
  obtain ⟨h1, h2, -⟩ := Node.key_eq_iff.mp hk
  rcases h.only a m ha with rfl | rfl | ⟨j, hj, rfl | rfl⟩
  · rw [h.top] at ha
    obtain rfl := Option.some.inj ha
    exact hl h2.symm
  · rw [h.bot] at ha
    obtain rfl := Option.some.inj ha
    exact hl h2.symm
  · have h3 := congrArg UInt64.toNat h1
    change (UInt64.ofNat j).toNat = (UInt64.ofNat i).toNat at h3
    rw [UInt64.toNat_ofNat', UInt64.toNat_ofNat'] at h3
    omega
  · have h3 := congrArg UInt64.toNat h1
    change (UInt64.ofNat j).toNat = (UInt64.ofNat i).toNat at h3
    rw [UInt64.toNat_ofNat', UInt64.toNat_ofNat'] at h3
    omega

/-- The nodes of one more variable. -/
theorem Vars.snoc (h : Vars trueId falseId i vs D) {v nv : Bdd} (hv : D v = none) (hnv : D nv = none)
    {D' : Bdd → Option Node}
    (hDv : D' v = some (Node.from' (UInt64.ofNat i) falseId trueId).held)
    (hDnv : D' nv = some (Node.from' (UInt64.ofNat i) trueId falseId).held)
    (hD : ∀ a, a ≠ v → a ≠ nv → D' a = D a) :
    Vars trueId falseId (i + 1) (vs.1 ++ [v], vs.2 ++ [nv]) D' := by
  have hold : ∀ a m, D a = some m → D' a = some m := fun a m ha => by
    rw [hD a (fun he => by rw [he, hv] at ha; cases ha) fun he => by rw [he, hnv] at ha; cases ha]
    exact ha
  refine ⟨hold _ _ h.top, hold _ _ h.bot, fun a m ha => ?_, fun a m ha => ?_, by simp [h.len],
    by simp [h.nlen], fun j a hj => ?_, fun j a hj => ?_⟩
  · by_cases hav : a = v
    · rw [hav, hDv] at ha
      exact Or.inr (Or.inr ⟨i, Nat.lt_succ_self i, Or.inl (Option.some.inj ha).symm⟩)
    · by_cases hanv : a = nv
      · rw [hanv, hDnv] at ha
        exact Or.inr (Or.inr ⟨i, Nat.lt_succ_self i, Or.inr (Option.some.inj ha).symm⟩)
      · rw [hD a hav hanv] at ha
        refine (h.only a m ha).imp_right (Or.imp_right ?_)
        rintro ⟨j, hj, hm⟩
        exact ⟨j, Nat.lt_succ_of_lt hj, hm⟩
  · by_cases hav : a = v
    · exact Or.inr (Or.inr (Or.inl (by simp [hav])))
    · by_cases hanv : a = nv
      · exact Or.inr (Or.inr (Or.inr (by simp [hanv])))
      · rw [hD a hav hanv] at ha
        exact (h.mem a m ha).imp_right (Or.imp_right
          (Or.imp (List.mem_append_left _) (List.mem_append_left _)))
  · rcases Nat.lt_or_ge j i with hlt | hge
    · rw [List.getElem?_append_left (by rw [h.len]; exact hlt)] at hj
      exact hold _ _ (h.var j a hj)
    · have hji : j = i := by
        have := (List.getElem?_eq_some_iff.mp hj).1
        simp only [List.length_append, h.len, List.length_singleton] at this
        omega
      subst hji
      rw [← h.len, List.getElem?_concat_length] at hj
      rw [← Option.some.inj hj]
      exact hDv
  · rcases Nat.lt_or_ge j i with hlt | hge
    · rw [List.getElem?_append_left (by rw [h.nlen]; exact hlt)] at hj
      exact hold _ _ (h.nvar j a hj)
    · have hji : j = i := by
        have := (List.getElem?_eq_some_iff.mp hj).1
        simp only [List.length_append, h.nlen, List.length_singleton] at this
        omega
      subst hji
      rw [← h.nlen, List.getElem?_concat_length] at hj
      rw [← Option.some.inj hj]
      exact hDnv

end

namespace Manager

open Store

variable {b s : Store} {D : Bdd → Option Node} {c t : Nat} {tol bad : Prop} {α : Type} {p : Bdd}
  {trueId falseId : Bdd} {i fuel : Nat} {vs : List Bdd × List Bdd}

theorem wp_addNode {node : Node} {k : Bdd → Prog mem α} {Q : α → Store → Prop}
    (h : Stocked b D c s) (h0 : node.refCnt = 0) (hn : node.HashOk)
    (hkey : ∀ a m, D a = some m → m.key ≠ node.key) (hbad : ¬ b.Sized → bad)
    (hfuel : tol ∨ c + 1 < fuel)
    (hk : ∀ p s', D p = none → Stocked b (Function.update D p (some node.held)) (c + 1) s' →
      wp (founding t tol bad) (k p) Q s') :
    wp (founding t tol bad) (addNode node fuel >>= k) Q s := by
  refine wp_bind.mpr (wp_alloc h h0 fun p s₁ h1 hp _ => ?_)
  refine wp_stock h1 hp hn hkey hbad hfuel fun _ s₂ h2 _ => ?_
  refine wp_ref h2 (Function.update_self ..) fun s₃ h3 => ?_
  rw [Function.update_idem] at h3
  exact hk p s₃ hp.out h3

theorem wp_addVar (h : Stocked b D c s) (hv : Vars trueId falseId i vs D) (hi : i < 2 ^ 60)
    (hbad : ¬ b.Sized → bad) (hfuel : tol ∨ c + 2 < fuel) :
    wp (founding t tol bad) (addVar falseId trueId fuel i vs)
      (fun vs' s' => ∃ D', Vars trueId falseId (i + 1) vs' D' ∧ Stocked b D' (c + 2) s') s := by
  have ht := (h.has hv.top).ne_zero
  have hf := (h.has hv.bot).ne_zero
  unfold addVar
  refine wp_alloc h rfl fun v s₁ h1 hp1 _ => ?_
  refine wp_alloc h1 rfl fun nv s₂ h2 hp2 hl2 => ?_
  obtain ⟨hp1, hne⟩ := hl2 v _ hp1
  refine wp_stock h2 hp1 rfl (fun a m ha => hv.key_ne hi ht hf hf ha) hbad
    (hfuel.imp_right fun h => by omega) fun _ s₃ h3 hl3 => ?_
  have hp2 := hl3 nv _ hne.symm hp2
  refine wp_stock h3 hp2 rfl (fun a m ha => ?_) hbad (hfuel.imp_right fun h => by omega)
    fun _ s₄ h4 _ => ?_
  · by_cases hav : a = v
    · rw [hav, Function.update_self] at ha
      obtain rfl := Option.some.inj ha
      exact fun hk => hv.ne (Node.key_eq_iff.mp hk).2.1.symm
    · rw [Function.update_of_ne hav] at ha
      exact hv.key_ne hi ht hf ht ha
  have hDv : Function.update (Function.update D v (some (Node.from' (UInt64.ofNat i) falseId trueId)))
      nv (some (Node.from' (UInt64.ofNat i) trueId falseId)) v =
      some (Node.from' (UInt64.ofNat i) falseId trueId) := by
    rw [Function.update_of_ne hne, Function.update_self]
  refine wp_ref h4 hDv fun s₅ h5 => ?_
  refine wp_ref h5 (n := Node.from' (UInt64.ofNat i) trueId falseId)
    (by rw [Function.update_of_ne hne.symm, Function.update_self]) fun s₆ h6 => ?_
  refine ⟨_, hv.snoc hp1.out ?_ ?_ (Function.update_self ..) fun a hav hanv => ?_, h6⟩
  · have := hp2.out
    rwa [Function.update_of_ne hne.symm] at this
  · rw [Function.update_of_ne hne, Function.update_self]
    rfl
  · simp only [Function.update_of_ne hav, Function.update_of_ne hanv]

/-- The constants and the variables, in the order of `init`. -/
theorem wp_initNodes (h : Stocked b (fun _ => none) 0 s) {varNum : Nat} (hbad : ¬ b.Sized → bad)
    (hcap : 2 ^ 63 ≤ varNum * 8 → bad) (hfuel : tol ∨ 2 * varNum + 3 < fuel) :
    wp (founding t tol bad) (initNodes varNum fuel) (fun g s' => g.numVars = varNum ∧
      varNum < 2 ^ 60 ∧ ∃ D, Vars g.trueId g.falseId varNum (g.vars, g.nvars) D ∧
        Stocked b D (2 + 2 * varNum) s') s := by
  unfold initNodes
  refine wp_addNode h rfl rfl (fun a m ha => by cases ha) hbad
    (hfuel.imp_right fun h => by omega) fun T s₁ hT h1 => ?_
  refine wp_addNode h1 rfl rfl (fun a m ha => ?_) hbad
    (hfuel.imp_right fun h => by omega) fun F s₂ hF h2 => ?_
  · by_cases haT : a = T
    · rw [haT, Function.update_self] at ha
      obtain rfl := Option.some.inj ha
      exact fun hk => absurd (Node.key_eq_iff.mp hk).1 (by decide)
    · rw [Function.update_of_ne haT] at ha
      cases ha
  have hTF : T ≠ F := by
    rintro rfl
    rw [Function.update_self] at hF
    cases hF
  refine wp_ite _ (fun hc => ?_) fun hc => ?_
  · rintro s' rfl
    exact Logic.Does.of_error trivial rfl (Or.inr ⟨rfl, hcap hc⟩)
  have hTF' : ∀ a m, Function.update (Function.update (fun _ => none) T (some (Node.new 1).held)) F
      (some (Node.new 0).held) a = some m → a = T ∨ a = F := by
    intro a m ha
    by_cases haF : a = F
    · exact Or.inr haF
    · rw [Function.update_of_ne haF] at ha
      by_cases haT : a = T
      · exact Or.inl haT
      · rw [Function.update_of_ne haT] at ha
        cases ha
  have hv : Vars T F 0 ([], []) (Function.update (Function.update (fun _ => none) T
      (some (Node.new 1).held)) F (some (Node.new 0).held)) :=
    ⟨(Function.update_of_ne hTF _ _).trans (Function.update_self ..), Function.update_self ..,
      fun a m ha => (hTF' a m ha).imp_right Or.inl, fun a m ha => (hTF' a m ha).imp_right Or.inl,
      rfl, rfl, fun j v hj => by simp at hj, fun j v hj => by simp at hj⟩
  refine wp_seq (wp_forRange (I := fun i vs s => ∃ D, Vars T F i vs D ∧ Stocked b D (2 + 2 * i) s)
    ⟨_, hv, h2⟩ ?_) ?_
  · rintro i vs s' hi ⟨D, hv, hs⟩
    refine wp_mono ?_ (wp_addVar hs hv (by omega) hbad (hfuel.imp_right fun h => by omega))
    rintro vs' s'' ⟨D', hv', hs'⟩
    exact ⟨D', hv', hs'⟩
  · rintro vs s' ⟨D, hv, hs⟩
    exact ⟨rfl, by omega, D, hv, hs⟩

/-! ## The new manager -/

/-- What `init` of manager `m` has done. -/
structure Founded (m : Nat) (tableSize cacheSize : UInt64) (varNum : Nat) (w w' : World) : Prop where
  inv : w'.Inv
  made : w'.made = Function.update w.made m true
  idle : w'.Idle m
  others : ∀ k, k ≠ m → w'.mgr k = w.mgr k
  numVars : (w'.consts m).numVars = varNum
  var : ∀ i, i < varNum → ∃ v, (w'.consts m).vars[i]? = some v ∧ w'.Stands m v fun x => x i
  nvar : ∀ i, i < varNum → ∃ v, (w'.consts m).nvars[i]? = some v ∧ w'.Stands m v fun x => !(x i)
  kept : ∀ a, (w'.store m).Live a ↔ (w'.consts m).Kept a
  refs : ∀ a, (w'.store m).Live a → (w'.heap.get a).refCnt = 1
  refsOther : ∀ a, ¬ (w'.store m).Live a → (w'.heap.get a).refCnt = (w.heap.get a).refCnt
  onward : World.Onward w w'
  frees : w'.heap.frees = w.heap.frees
  freeId : w'.freeId = w.freeId
  count : (w'.mgr m).set.numEntry = 2 + 2 * varNum
  tableExp : (w'.mgr m).set.sizeExp = capacityExp tableSize
  notExp : (w'.mgr m).notCache.sizeExp = capacityExp cacheSize
  cacheExp : ∀ c, ((w'.mgr m).cache c).sizeExp = capacityExp cacheSize

theorem Founded.here {m : Nat} {tableSize cacheSize : UInt64} {varNum : Nat} {w w' : World}
    (h : Founded m tableSize cacheSize varNum w w') : w'.made m = true := by
  rw [h.made]
  exact Function.update_self ..

end Manager

section
variable {b s : Store} {D : Bdd → Option Node} {c : Nat} {g : Consts} (hlt : g.numVars < 2 ^ 60)
  (hv : Vars g.trueId g.falseId g.numVars (g.vars, g.nvars) D) (hs : Store.Stocked b D c s)
include hlt hv hs

/-- An inner node of a new manager is a variable or its negation. -/
theorem Vars.inner {a : Bdd} (ha : s.Live a) (hT : a ≠ g.trueId) (hF : a ≠ g.falseId) :
    ∃ j < g.numVars, (s.heap.get a).level.toNat = j ∧
      ((s.heap.get a).low = g.falseId ∧ (s.heap.get a).high = g.trueId ∨
       (s.heap.get a).low = g.trueId ∧ (s.heap.get a).high = g.falseId) := by
  obtain ⟨m, hm⟩ := (hs.live a).mp ha
  have hn := hs.node a m hm
  rcases hv.only a m hm with h | h | ⟨j, hj, h⟩
  · exact absurd h hT
  · exact absurd h hF
  · have hl : (UInt64.ofNat j).toNat = j := by
      rw [UInt64.toNat_ofNat']
      omega
    refine ⟨j, hj, ?_, ?_⟩
    · rw [hn.level]
      rcases h with rfl | rfl <;> exact hl
    · rw [hn.low, hn.high]
      rcases h with rfl | rfl
      · exact Or.inl ⟨rfl, rfl⟩
      · exact Or.inr ⟨rfl, rfl⟩

/-- The nodes of a new manager are in order. -/
theorem Vars.nodesOk : NodesOk g s.heap s.Live := by
  have htop : s.Live g.trueId := (hs.live _).mpr ⟨_, hv.top⟩
  have hbot : s.Live g.falseId := (hs.live _).mpr ⟨_, hv.bot⟩
  have hinner := fun a ha (hn : (g.graph s.heap).node a) => hv.inner hlt hs (a := a) ha hn.2.1 hn.2.2
  have hmark : ∀ a, s.Live a → (s.heap.get a).level &&& MARK = 0 := by
    intro a ha
    refine not_marked_of_lt ?_
    by_cases hT : a = g.trueId
    · rw [hT, (hs.node _ _ hv.top).level]
      decide
    · by_cases hF : a = g.falseId
      · rw [hF, (hs.node _ _ hv.bot).level]
        decide
      · obtain ⟨j, hj, hl, -⟩ := hv.inner hlt hs ha hT hF
        omega
  have hlvl : ∀ a, s.Live a → (s.heap.get a).lvl = (s.heap.get a).level.toNat := fun a ha => by
    unfold Node.lvl
    rw [unmark_of_not_marked (hmark a ha)]
  refine ⟨hlt, fun a ha => hs.inv.table.has ha, htop, hbot, (hs.node _ _ hv.top).key,
    (hs.node _ _ hv.bot).key, fun a ha hm => hm (hmark a ha), fun a ha hn => ?_, fun a ha hn => ?_,
    fun a ha hn => ?_, fun a ha hn => ?_⟩
  · obtain ⟨j, -, -, ⟨h1, h2⟩ | ⟨h1, h2⟩⟩ := hinner a ha hn
    · rw [h1, h2]
      exact ⟨hbot, htop⟩
    · rw [h1, h2]
      exact ⟨htop, hbot⟩
  · obtain ⟨j, hj, hl, -⟩ := hinner a ha hn
    rw [hlvl a ha, hl]
    exact hj
  · obtain ⟨j, -, -, ⟨h1, h2⟩ | ⟨h1, h2⟩⟩ := hinner a ha hn
    · rw [h1, h2]
      exact ⟨Or.inr (Or.inl rfl), Or.inl rfl⟩
    · rw [h1, h2]
      exact ⟨Or.inl rfl, Or.inr (Or.inl rfl)⟩
  · obtain ⟨j, -, -, ⟨h1, h2⟩ | ⟨h1, h2⟩⟩ := hinner a ha hn
    · rw [h1, h2]
      exact hv.ne.symm
    · rw [h1, h2]
      exact hv.ne

/-- What the nodes of a variable stand for. -/
theorem Vars.denotes {v : Bdd} {j : Nat} {low high : Bdd} {x y : Bool} (hj : j < g.numVars)
    (hD : D v = some (Node.from' (UInt64.ofNat j) low high).held)
    (hlow : g.Denotes s.heap low fun _ => x) (hhigh : g.Denotes s.heap high fun _ => y)
    (hne : low ≠ 0) : g.Denotes s.heap v fun a => if a j then y else x := by
  have hl : s.Live v := (hs.live v).mpr ⟨_, hD⟩
  have hn := hs.node v _ hD
  have hok := hv.nodesOk hlt hs
  have hnode : (g.graph s.heap).node v := by
    rcases hok.cases hl with h | h | h
    · exact absurd (hn.low.symm.trans (hok.terminal (Or.inl h)).1) hne
    · exact absurd (hn.low.symm.trans (hok.terminal (Or.inr h)).1) hne
    · exact h
  have hlvl : (g.graph s.heap).level v = j := by
    show (s.heap.get v).lvl = j
    rw [hok.lvl_eq hl, hn.level]
    show (UInt64.ofNat j).toNat = j
    rw [UInt64.toNat_ofNat']
    omega
  have hd : g.Denotes s.heap v (choose ((g.graph s.heap).level v) (fun _ => x) fun _ => y) := by
    refine Diagram.Denotes.node hnode ?_ ?_
    · show Diagram.Denotes _ (s.heap.get v).low _
      rw [hn.low]
      exact hlow
    · show Diagram.Denotes _ (s.heap.get v).high _
      rw [hn.high]
      exact hhigh
  rw [hlvl] at hd
  exact hd

end

namespace Manager

open Store

variable {w : World} {m t n : Nat} {tableSize cacheSize : UInt64} {varNum : Nat}

/-- The world with the new manager. -/
theorem founded (hi : w.Inv) (hm : w.made m = false) {b s : Store} {g : Consts}
    {D : Bdd → Option Node}
    (hb : b = ⟨w.heap, .withCapacity tableSize, w.freeId⟩) (hnum : g.numVars = varNum)
    (hlt : varNum < 2 ^ 60) (hv : Vars g.trueId g.falseId varNum (g.vars, g.nvars) D)
    (hs : Stocked b D (2 + 2 * varNum) s) : Founded m tableSize cacheSize varNum w
      { heap := s.heap
        freeId := s.freeId
        made := Function.update w.made m true
        mgr := Function.update w.mgr m
          { g with
            set := s.set
            rwLock := ⟨[], none⟩
            notCache := .withCapacity cacheSize
            cache := fun _ => .withCapacity cacheSize } } := by
  subst hb hnum
  generalize hw' : World.mk s.heap s.freeId (Function.update w.made m true) _ = w'
  have hheap : w'.heap = s.heap := by rw [← hw']
  have hfree : w'.freeId = s.freeId := by rw [← hw']
  have hfree' : w'.freeId = w.freeId := hfree.trans hs.freeId
  have hmgr : w'.mgr m = { g with
      set := s.set
      rwLock := ⟨[], none⟩
      notCache := .withCapacity cacheSize
      cache := fun _ => .withCapacity cacheSize } := by
    rw [← hw']
    exact Function.update_self ..
  have hothers : ∀ k, k ≠ m → w'.mgr k = w.mgr k := fun k hk => by
    rw [← hw']
    exact Function.update_of_ne hk ..
  have hmade : w'.made = Function.update w.made m true := by rw [← hw']
  have hstore : w'.store m = s := by
    unfold World.store
    rw [hmgr, hheap, hfree]
  have hcon : w'.consts m = g := by
    unfold World.consts
    rw [hmgr]
  have hold : ∀ k, w.made k = true → k ≠ m := by
    rintro k hk rfl
    rw [hm] at hk
    cases hk
  have hcase : ∀ k, w'.made k = true → k = m ∨ k ≠ m ∧ w.made k = true := by
    intro k hk
    by_cases hkm : k = m
    · exact Or.inl hkm
    · rw [hmade, Function.update_of_ne hkm] at hk
      exact Or.inr ⟨hkm, hk⟩
  have hcell : ∀ a, w.heap.Has a → w'.heap.cell a = w.heap.cell a := fun a ha => by
    rw [hheap]
    exact hs.old a ha
  have hother := fun k (hk : w.made k = true) => hi.other hk (hothers k (hold k hk))
    fun a ha => World.recounted_of_cell ((hi.table k hk).nodes.has a ha)
      (hcell a ((hi.table k hk).nodes.has a ha))
  have hnodes : NodesOk g s.heap s.Live := hv.nodesOk hlt hs
  have htable : TableOk (w'.consts m) (w'.store m) := by
    rw [hcon, hstore]
    refine ⟨hs.inv, hs.owed, ?_, hnodes⟩
    rw [hs.len, hs.sizeExp]
    rfl
  have hnew : ∀ a, (w'.store m).Live a → ¬ w.heap.Has a := by
    intro a ha
    rw [hstore] at ha
    obtain ⟨n, hn⟩ := (hs.live a).mp ha
    exact hs.new a n hn
  have hrefs : ∀ a, ¬ (w'.store m).Live a → (w'.heap.get a).refCnt = (w.heap.get a).refCnt := by
    intro a ha
    by_cases hh : w.heap.Has a
    · unfold Heap.get
      rw [hcell a hh]
    · rw [Heap.get_of_not_has hh, hheap]
      refine hs.rest a hh ?_
      cases hD : D a with
      | none => rfl
      | some n =>
        rw [hstore] at ha
        exact absurd ((hs.live a).mpr ⟨n, hD⟩) ha
  have hinv : w'.Inv := by
    refine ⟨fun k hk => ?_, fun k hk => ?_, fun k k' a hk hk' hne ha hb => ?_, fun u hu => ?_,
      fun u v hu huv => ?_, fun a ha => ?_⟩
    · rcases hcase k hk with rfl | ⟨-, hk⟩
      · exact htable
      · exact (hother k hk).1
    · rcases hcase k hk with rfl | ⟨-, hk⟩
      · rw [hmgr]
        exact ⟨(LockFreeCache.withCapacity_empty _).quiet, rfl,
          (LockFreeCache.withCapacity_empty _).sound _,
          fun _ => (LockFreeCache.withCapacity_empty _).quiet, fun _ => rfl,
          fun _ => (LockFreeCache.withCapacity_empty _).sound _⟩
      · exact (hother k hk).2.1
    · rcases hcase k hk with rfl | ⟨-, hk⟩
      · rcases hcase k' hk' with rfl | ⟨-, hk'⟩
        · exact hne rfl
        · exact hnew a ha ((hi.table k' hk').nodes.has a (((hother k' hk').2.2 a).mp hb))
      · rcases hcase k' hk' with rfl | ⟨-, hk'⟩
        · exact hnew a hb ((hi.table k hk).nodes.has a (((hother k hk).2.2 a).mp ha))
        · exact hi.disjoint k k' a hk hk' hne (((hother k hk).2.2 a).mp ha)
            (((hother k' hk').2.2 a).mp hb)
    · rw [hfree'] at hu ⊢
      obtain ⟨h1, h2, h3⟩ := hi.scratch u hu
      have hget := World.recounted_of_cell h1 (hcell _ h1)
      refine ⟨hget.1, ?_, fun k hk hl => ?_⟩
      · unfold Heap.get at h2 ⊢
        rwa [hcell _ h1]
      · rcases hcase k hk with rfl | ⟨-, hk⟩
        · exact hnew _ hl h1
        · exact h3 k hk (((hother k hk).2.2 _).mp hl)
    · rw [hfree'] at hu huv
      exact hi.distinct u v hu huv
    · by_cases hl : (w'.store m).Live a
      · exact ⟨m, by rw [hmade]; exact Function.update_self .., hl⟩
      · rw [hrefs a hl] at ha
        obtain ⟨k, hk, hl'⟩ := hi.counted a ha
        refine ⟨k, ?_, ((hother k hk).2.2 a).mpr hl'⟩
        rw [hmade, Function.update_of_ne (hold k hk)]
        exact hk
  have htop : g.Denotes s.heap g.trueId fun _ => true := .top
  have hbot : g.Denotes s.heap g.falseId fun _ => false := .bot
  refine
    { inv := hinv
      made := hmade
      idle := by
        unfold World.Idle
        rw [hmgr]
      others := hothers
      numVars := by rw [hcon]
      var := fun i hi => ?_
      nvar := fun i hi => ?_
      kept := fun a => ?_
      refs := fun a ha => ?_
      refsOther := hrefs
      onward := ?_
      frees := by
        rw [hheap]
        exact hs.frees
      freeId := hfree'
      count := by
        rw [hmgr]
        exact hs.count
      tableExp := by
        rw [hmgr]
        exact hs.sizeExp
      notExp := by
        rw [hmgr]
        rfl
      cacheExp := fun c => by
        rw [hmgr]
        rfl }
  · have hlen : i < g.vars.length := hv.len ▸ hi
    have hD := hv.var i _ (List.getElem?_eq_getElem hlen)
    refine ⟨g.vars[i], by rw [hcon]; exact List.getElem?_eq_getElem hlen, ?_⟩
    unfold World.Stands
    rw [hcon, hstore]
    refine ⟨(hs.live _).mpr ⟨_, hD⟩, ?_⟩
    have hd := hv.denotes hlt hs hi hD hbot htop (hnodes.has _ hnodes.bot).ne_zero
    simpa using hd
  · have hlen : i < g.nvars.length := hv.nlen ▸ hi
    have hD := hv.nvar i _ (List.getElem?_eq_getElem hlen)
    refine ⟨g.nvars[i], by rw [hcon]; exact List.getElem?_eq_getElem hlen, ?_⟩
    unfold World.Stands
    rw [hcon, hstore]
    refine ⟨(hs.live _).mpr ⟨_, hD⟩, ?_⟩
    have hd := hv.denotes hlt hs hi hD htop hbot (hnodes.has _ hnodes.top).ne_zero
    have he : (fun x : Nat → Bool => if x i then false else true) = fun x => !(x i) := by
      funext x
      cases x i <;> rfl
    rwa [he] at hd
  · rw [hstore, hcon]
    constructor
    · intro ha
      obtain ⟨n, hn⟩ := (hs.live a).mp ha
      exact hv.mem a n hn
    · rintro (rfl | rfl | ha | ha)
      · exact hnodes.top
      · exact hnodes.bot
      · obtain ⟨j, hj⟩ := List.getElem?_of_mem ha
        exact (hs.live a).mpr ⟨_, hv.var j a hj⟩
      · obtain ⟨j, hj⟩ := List.getElem?_of_mem ha
        exact (hs.live a).mpr ⟨_, hv.nvar j a hj⟩
  · rw [hstore] at ha
    obtain ⟨n, hn⟩ := (hs.live a).mp ha
    rw [hheap, (hs.node a n hn).refCnt]
    rcases hv.only a n hn with rfl | rfl | ⟨j, -, rfl | rfl⟩
    · rw [hv.top] at hn
      obtain rfl := Option.some.inj hn
      rfl
    · rw [hv.bot] at hn
      obtain rfl := Option.some.inj hn
      rfl
    · rfl
    · rfl
  · refine .of_keeps hi (fun k hk => ?_) (fun k hk => ?_) ?_ (fun k a hk ha => ?_) fun k a hk ha => ?_
    · rw [hmade, Function.update_of_ne (hold k hk)]
      exact hk
    · exact congrArg Manager.toConsts (hothers k (hold k hk))
    · rw [hheap]
      exact hs.frees
    · have hl := ((hother k hk).2.2 a).mpr ha
      exact ⟨hl, (hother k hk).1.nodes.has a hl⟩
    · have hh := (hi.table k hk).nodes.has a ha
      exact (World.recounted_of_cell hh (hcell a hh)).2.alike

/-- **`init`.** -/
theorem run_init (hi : w.Inv) (hm : w.made m = false) (t : Nat) (tableSize cacheSize : UInt64)
    (varNum n : Nat) :
    (∃ w', init m t tableSize cacheSize varNum n w = .ok w' ∧
      Founded m tableSize cacheSize varNum w w') ∨
    ∃ e, init m t tableSize cacheSize varNum n w = .error e ∧
      (e = .spin ∧ ¬ 2 * varNum + 3 < n ∨
        e = .panic ∧ ¬ (capacityExp tableSize % 64 < 31 ∧ varNum * 8 < 2 ^ 63)) := by
  have hst : Stocked ⟨w.heap, .withCapacity tableSize, w.freeId⟩ (fun _ => none) 0
      ⟨w.heap, .withCapacity tableSize, w.freeId⟩ := .start rfl rfl rfl
  have hrun := wp_run (fun _ => trivial) (fun _ _ _ _ _ => trivial) (wp_initNodes (t := t) hst
    (fun hs (hr : capacityExp tableSize % 64 < 31 ∧ varNum * 8 < 2 ^ 63) =>
      hs (rangeI32_eq_shl64 hr.1))
    (fun hc hr => by omega) (Classical.em (2 * varNum + 3 < n)).symm)
  unfold init
  rcases hrun with ⟨g, s, hrun, ⟨hnum, hlt, D, hv, hs⟩, -⟩ | ⟨e, s, hrun, hstop, -⟩
  · rw [hrun]
    refine Or.inl ⟨_, rfl, founded hi hm rfl hnum hlt hv hs⟩
  · rw [hrun]
    exact Or.inr ⟨e, rfl, hstop⟩

end Manager

end Tobdd
