import Tobdd.Sessions

/-!
# What growing keeps

`Doubled t b s`: the table `s` is the table `b` with twice the buckets, and `get_or_insert`
cannot tell them apart.

    getOrInsert_answer: which node `get_or_insert` answers with is a matter of the keys only
    grow_doubles: `grow` doubles a table if and only if it has less than `2 ^ 30` buckets;
                  the new array is counted in `i32`
-/

namespace Tobdd.Store

open Resume Linked

/-- A table that nobody is at work on. -/
structure Quiet (b : Store) : Prop where
  inv : b.Inv
  owed : b.set.owed = []
  sized : b.Sized
  unmarked : ∀ a, b.Live a → (b.heap.get a).level &&& MARK = 0

/-- `get_or_insert` of the prepared node `p` answers the same on both tables. -/
def SameAnswer (t : Nat) (b s : Store) (p : Bdd) : Prop :=
  ∃ N, ∀ n, N ≤ n → ∃ x b' s', run (Store.exec t) (LockFreeSet.getOrInsert p n) b = .ok (x, b') ∧
    run (Store.exec t) (LockFreeSet.getOrInsert p n) s = .ok (x, s')

structure Doubled (t : Nat) (b s : Store) : Prop where
  len : s.set.buckets.len = 2 * b.set.buckets.len
  /-- the same nodes, each once -/
  nodes : s.nodes.Nodup ∧ ∀ a, a ∈ s.nodes ↔ a ∈ b.nodes
  /-- the chain of a bucket ends -/
  ends : ∀ i, i < s.set.buckets.len → Seg Place.next s.ld (.head i) (s.chain i) 0
  home : ∀ i, i < s.set.buckets.len → ∀ a ∈ s.chain i,
    (s.heap.get a).hash.toNat % s.set.buckets.len = i
  sorted : ∀ i, i < s.set.buckets.len → (s.chain i).Pairwise fun a b => s.key a < s.key b
  same : ∀ a, b.Live a → (s.heap.get a).level = (b.heap.get a).level ∧
    (s.heap.get a).low = (b.heap.get a).low ∧ (s.heap.get a).high = (b.heap.get a).high ∧
    (s.heap.get a).hash = (b.heap.get a).hash ∧ (s.heap.get a).refCnt = (b.heap.get a).refCnt
  numEntry : s.set.numEntry = b.set.numEntry
  answers : ∀ p, b.heap.Has p → ¬ b.Live p → (b.heap.get p).HashOk → SameAnswer t b s p

variable {b s : Store} {t n : Nat} {p : Bdd}

/-! ## get_or_insert -/

/-- **What `get_or_insert` answers**: the node with the key of `p` if there is one, and `p` if
there is none. -/
theorem getOrInsert_answer (h : s.Inv) (ho : s.set.owed = []) (hs : s.Sized) (hp : s.heap.Has p)
    (hnl : ¬ s.Live p) (hh : (s.heap.get p).HashOk) (hn : s.heap.brk + 1 < n) :
    ∃ x s', run (Store.exec t) (LockFreeSet.getOrInsert p n) s = .ok (x, s') ∧
      ((x = (p, true) ∧ ∀ c, s.Live c → s.key c ≠ s.key p) ∨
       ∃ c, x = (c, false) ∧ s.Live c ∧ s.key c = s.key p) := by
  have hready : Ready t p (maskIdx (s.heap.get p).hash s.set.sizeExp) (s.key p) s :=
    ⟨h, hp, hnl, hh, rfl, rfl, by rw [ho]; rfl⟩
  have hshort : Short s (maskIdx (s.heap.get p).hash s.set.sizeExp) n :=
    ⟨by omega, fun hi => by
      have := h.table.length_le hi
      omega⟩
  rcases run_getOrInsert hready (Or.inr hshort : False ∨ _) with
    ⟨⟨r, i⟩, s', hrun, ⟨hinv, -, hr, hk, hi⟩, hins⟩ | ⟨e, -, ⟨-, h⟩ | ⟨-, h⟩⟩
  · refine ⟨(r, i), s', hrun, ?_⟩
    cases i with
    | true =>
      obtain rfl : r = p := hi
      refine Or.inl ⟨rfl, fun c hc he => hnl ?_⟩
      -- two nodes of one key are one
      have hkey : s'.key c = s'.key r := (hins.grows.key hc).trans (he.trans hk.symm)
      have hcr : c = r := hinv.table.unique (hins.grows.live hc) hr hkey
      exact hcr ▸ hc
    | false =>
      have hnl' : ¬ s'.Live p := hi
      have hrs := (hins.new r hr).resolve_right fun he => hnl' (he ▸ hr)
      exact Or.inr ⟨r, rfl, hrs, (hins.grows.key hrs).symm.trans hk⟩
  · exact h.elim
  · exact absurd hs h

/-! ## grow -/

/-- `grow`, with nobody else about. -/
theorem run_grow (hb : b.Quiet) (t n : Nat) :
    (∃ s, run (Store.exec t) (LockFreeSet.grow n) b = .ok ((), s) ∧ Grown b s ∧
      Tidies b.Live b s) ∨
    ∃ e, run (Store.exec t) (LockFreeSet.grow n) b = .error e ∧
      (e = .spin ∧ ¬ 2 * b.heap.brk < n ∨
       e = .panic ∧ rangeI32 (b.set.sizeExp + 1) ≠ shl64 (b.set.sizeExp + 1)) := by
  have hwp := wp_grow (t := t) hb.inv hb.owed (Nat.le_of_eq hb.sized)
    (fun h => absurd hb.sized h)
    (fun h : rangeI32 (b.set.sizeExp + 1) ≠ shl64 (b.set.sizeExp + 1) => h)
    (Classical.em (2 * b.heap.brk < n)).symm
  have halone := wp_weaken
    (L := collecting b.Live t (¬ 2 * b.heap.brk < n)
      (rangeI32 (b.set.sizeExp + 1) ≠ shl64 (b.set.sizeExp + 1)))
    (M := .alone (Store.exec t) (Tidies b.Live) fun e _ => e = .spin ∧ ¬ 2 * b.heap.brk < n ∨
      e = .panic ∧ rangeI32 (b.set.sizeExp + 1) ≠ shl64 (b.set.sizeExp + 1)) rfl
    (by
      rintro s _ rfl
      exact Drops.refl s) (fun _ _ h => h) (fun _ _ h => h) (fun _ _ h => h) (fun _ h => h) hwp
  rcases wp_run Tidies.refl (fun _ _ _ h1 h2 => h1.trans h2) halone with
    ⟨⟨⟩, s, hrun, hg, ht⟩ | ⟨e, _, hrun, he, -⟩
  · exact Or.inl ⟨s, hrun, hg, ht⟩
  · exact Or.inr ⟨e, hrun, he⟩

/-- A table that has grown to an array as long as the mask assumes has doubled. -/
theorem Grown.doubled (hb : b.Quiet) (hg : Grown b s) (ht : Tidies b.Live b s)
    (hroom : rangeI32 (b.set.sizeExp + 1) = shl64 (b.set.sizeExp + 1))
    (hdouble : shl64 (b.set.sizeExp + 1) = 2 * shl64 b.set.sizeExp) (t : Nat) : Doubled t b s := by
  have hlen : s.set.buckets.len = 2 * b.set.buckets.len := by
    rw [hg.len, hroom, hdouble, hb.sized]
  have hsized : s.Sized := by
    show s.set.buckets.len = shl64 s.set.sizeExp
    rw [hg.len, hroom, hg.sizeExp]
  have hhas : ∀ a, b.Live a → s.heap.Has a := fun a ha =>
    (hg.has a).mpr (hb.inv.table.has ha)
  refine ⟨hlen, ⟨nodes_nodup hg.inv.table.chains, fun a => ?_⟩, fun i hi => ?_, fun i hi a ha => ?_,
    hg.inv.table.sorted, fun a ha => ?_, hg.numEntry, fun p hp hnl hh => ?_⟩
  · rw [mem_nodes, mem_nodes, hg.live]
  · rw [ld_eq]
    exact hg.inv.table.chains.seg i hi
  · have h := (hg.inv.table.home i hi a ha).2
    rw [mask_toNat] at h
    rw [hsized]
    exact h
  · have h := hg.node a
    exact ⟨h.level, h.low, h.high, h.hash, (ht.same a (hhas a ha)).2⟩
  · -- the prepared node was not touched
    have hcell : s.heap.cell p = b.heap.cell p := ht.other p hnl
    have hget : s.heap.get p = b.heap.get p := by
      unfold Heap.get
      rw [hcell]
    have hp' : s.heap.Has p := (hg.has p).mpr hp
    have hnl' : ¬ s.Live p := fun h => hnl ((hg.live p).mp h)
    refine ⟨b.heap.brk + 2, fun n hn => ?_⟩
    obtain ⟨x, b', hrun, hx⟩ := getOrInsert_answer (t := t) hb.inv hb.owed hb.sized hp hnl hh
      (n := n) hn
    obtain ⟨y, s', hrun', hy⟩ := getOrInsert_answer (t := t) hg.inv hg.owed hsized hp' hnl'
      (by rw [hget]; exact hh) (n := n) (by rw [hg.brk]; exact hn)
    have hkey : ∀ a, s.key a = b.key a := fun a => (hg.node a).key
    have hxy : y = x := by
      rcases hx with ⟨rfl, hno⟩ | ⟨c, rfl, hc, hck⟩
      · rcases hy with ⟨rfl, -⟩ | ⟨c, -, hc, hck⟩
        · rfl
        · rw [hkey, hkey] at hck
          exact absurd hck (hno c ((hg.live c).mp hc))
      · rcases hy with ⟨-, hno⟩ | ⟨d, rfl, hd, hdk⟩
        · refine absurd ?_ (hno c ((hg.live c).mpr hc))
          rw [hkey, hkey]
          exact hck
        · rw [hkey, hkey] at hdk
          rw [hb.inv.table.unique ((hg.live d).mp hd) hc (hdk.trans hck.symm)]
    exact ⟨x, b', s', hrun, hxy ▸ hrun'⟩

/-- With enough rounds `grow` doubles the table. -/
def GrowsWell (t : Nat) (b : Store) : Prop :=
  ∃ N, ∀ n, N ≤ n → ∃ s, run (Store.exec t) (LockFreeSet.grow n) b = .ok ((), s) ∧ Doubled t b s

/-- The new array has less buckets than the doubled one should, from `2 ^ 30` on. -/
theorem not_growsWell (hb : b.Quiet) (hlen : 2 ^ 30 ≤ b.set.buckets.len) : ¬ GrowsWell t b := by
  rintro ⟨N, hN⟩
  obtain ⟨s, hrun, hd⟩ := hN N (Nat.le_refl N)
  rcases run_grow hb t N with ⟨s', hrun', hg, -⟩ | ⟨e, hrun', -⟩
  · obtain rfl := (Prod.mk.inj (Except.ok.inj (hrun.symm.trans hrun'))).2
    have h1 := hd.len
    have h2 := rangeI32_lt (b.set.sizeExp + 1)
    rw [hg.len] at h1
    omega
  · cases hrun.symm.trans hrun'

theorem growsWell_of_lt (hb : b.Quiet) (t : Nat) (hlen : b.set.buckets.len < 2 ^ 30) :
    GrowsWell t b := by
  have hsz : b.set.buckets.len = 2 ^ (b.set.sizeExp % 64) := hb.sized
  have hexp : b.set.sizeExp % 64 < 30 := by
    by_contra hge
    have := Nat.pow_le_pow_right (n := 2) (by decide) (Nat.le_of_not_lt hge)
    omega
  have hmod : (b.set.sizeExp + 1) % 64 = b.set.sizeExp % 64 + 1 := by omega
  have hroom : rangeI32 (b.set.sizeExp + 1) = shl64 (b.set.sizeExp + 1) :=
    rangeI32_eq_shl64 (by omega)
  have hdouble : shl64 (b.set.sizeExp + 1) = 2 * shl64 b.set.sizeExp := by
    unfold shl64
    rw [hmod, Nat.pow_succ, Nat.mul_comm]
  refine ⟨2 * b.heap.brk + 1, fun n hn => ?_⟩
  rcases run_grow hb t n with ⟨s, hrun, hg, ht⟩ | ⟨e, -, ⟨-, h⟩ | ⟨-, h⟩⟩
  · exact ⟨s, hrun, hg.doubled hb ht hroom hdouble t⟩
  · exact absurd hn h
  · exact absurd hroom h

/-- **`grow` doubles a table** if and only if it has less than `2 ^ 30` buckets. -/
theorem grow_doubles (hb : b.Quiet) (t : Nat) : GrowsWell t b ↔ b.set.buckets.len < 2 ^ 30 := by
  constructor
  · intro h
    by_contra hlen
    exact not_growsWell hb (Nat.le_of_not_lt hlen) h
  · exact growsWell_of_lt hb t

/-- The table that `with_capacity` makes, in memory that is not used otherwise. -/
def empty (cap : UInt64) : Store := ⟨.empty fun _ => 0, .withCapacity cap, fun _ => 0⟩

theorem empty_quiet (cap : UInt64) (h : capacityExp cap % 64 < 31) : (empty cap).Quiet := by
  obtain ⟨hinv, howed, -, -, -, hlive, -⟩ := Stocked.start (b := empty cap)
    rfl rfl rfl
  refine ⟨hinv, howed, rangeI32_eq_shl64 h, fun a ha => ?_⟩
  obtain ⟨n, hn⟩ := (hlive a).mp ha
  cases hn

theorem Quiet.of_sound {w : World} {m : Nat} (h : w.Sound m) : (w.store m).Quiet where
  inv := h.inv
  owed := h.owed
  sized := h.sized
  unmarked a ha := not_not.mp (h.unmarked a ha)

/-- A table of eight nodes. -/
theorem grow_doubles_errand : ((Manager.errandStates 2).world.store 0).nodes.length = 8 ∧
    GrowsWell 0 ((Manager.errandStates 2).world.store 0) := by
  obtain ⟨hr, -, hm⟩ := Manager.errand_reach (by decide : 2 ≤ 5)
  exact ⟨by decide +kernel, (grow_doubles (.of_sound (hr.sound hm)) 0).mpr (by decide +kernel)⟩

/-- A table of `2 ^ 30` buckets does not grow. -/
theorem empty_not_growsWell : (empty (2 ^ 29)).Quiet ∧ ¬ GrowsWell 0 (empty (2 ^ 29)) := by
  have h := empty_quiet (2 ^ 29) (by decide)
  exact ⟨h, not_growsWell h (by decide)⟩

end Tobdd.Store
