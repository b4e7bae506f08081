import Mathlib.Data.Finset.Dedup
import Tobdd.Sweep

/-!
# Collection

What `mark_nodes`, `gc_unmarked` and `unmark_nodes` do one after the other.

    wp_sweepNodes: after a sweep the table holds the marked nodes, as they were before, in
                   the same order; the rest of the table is not allocated any more
    wp_restore:    when the marks are cleared without a sweep, the table is what it was
-/

namespace Tobdd.Store

open Resume Linked

variable {rank : Bdd → Nat} {b s s' : Store} {Z : Bdd → Prop} {lv : Bdd → UInt64} {M : Finset Bdd}
  {C : Nat → List Bdd} {t : Nat} {tol bad : Prop}

theorem Leveled.chains (h : Leveled b Z lv s) (hc : Chains b.set.buckets b.heap C) :
    Chains s.set.buckets s.heap C := by
  rw [h.buckets]
  exact hc.congr fun i hi a ha => ⟨(h.has a).mpr (hc.has i hi a ha), h.next a⟩

theorem Leveled.chain_eq (h : Leveled b Z lv s) (hc : Chains b.set.buckets b.heap b.chain) {i : Nat}
    (hi : i < b.set.buckets.len) : s.chain i = b.chain i :=
  Store.chain_eq (h.chains hc) (by rw [h.buckets]; exact hi)

theorem Leveled.live (h : Leveled b Z lv s) (hc : Chains b.set.buckets b.heap b.chain) :
    s.Live = b.Live :=
  funext fun a => propext (live_congr h.buckets (fun _ hj => h.chain_eq hc hj) a)

theorem Leveled.sized (h : Leveled b Z lv s) : s.Sized ↔ b.Sized := by
  unfold Sized
  rw [h.buckets, h.sizeExp]

/-- The table `b` without the nodes outside `M`. -/
structure Collected (b : Store) (M : Finset Bdd) (s : Store) : Prop where
  inv : s.Inv
  owed : s.set.owed = []
  len : s.set.buckets.len = b.set.buckets.len
  sizeExp : s.set.sizeExp = b.set.sizeExp
  chain : ∀ i, i < b.set.buckets.len → s.chain i = (b.chain i).filter (· ∈ M)
  numEntry : s.set.numEntry = M.card
  has : ∀ a, s.heap.Has a ↔ b.heap.Has a ∧ (b.Live a → a ∈ M)
  node : ∀ a ∈ M, (b.heap.get a).Alike (s.heap.get a)

theorem Collected.live (h : Collected b M s) (hM : ∀ a ∈ M, b.Live a) (a : Bdd) :
    s.Live a ↔ a ∈ M := by
  constructor
  · rintro ⟨i, hi, ha⟩
    rw [h.chain i (h.len ▸ hi)] at ha
    simpa using (List.mem_filter.mp ha).2
  · intro ha
    obtain ⟨i, hi, hb⟩ := hM a ha
    refine ⟨i, h.len.symm ▸ hi, ?_⟩
    rw [h.chain i hi]
    exact List.mem_filter.mpr ⟨hb, by simpa using ha⟩

theorem MarkedNodes.sweepable (hc : Chains b.set.buckets b.heap b.chain)
    (hb : Markable b.Live rank b) (h : MarkedNodes b M s) : Sweepable s M := by
  have hle := h.marks.leveled
  have hlive := hle.live hc
  refine ⟨chains_self (hle.chains hc), fun a ha => ?_, fun a ha c hac => ?_, fun a ha hm => ?_⟩
  · rw [hlive] at ha
    show (s.heap.get a).level &&& MARK ≠ 0 ↔ _
    rw [hle.level a (hb.has a ha)]
    exact hb.marked_iff ha
  · refine h.survivors.closed a ha c ⟨(hle.has a).mp hac.1, (hle.has c).mp hac.2.1, ?_⟩
    rw [← hle.low a, ← hle.high a]
    exact hac.2.2
  · rw [hlive] at ha
    exact hle.zero a (Or.inr ⟨ha, hm⟩)

/-- A chain with nodes taken out is in order, when the nodes that stay keep their keys. -/
theorem Collected.of_chains (ht : b.Table) (hM : ∀ a ∈ M, b.Live a)
    (hc : Chains s.set.buckets s.heap C) (hlen : s.set.buckets.len = b.set.buckets.len)
    (hexp : s.set.sizeExp = b.set.sizeExp)
    (hC : ∀ i, i < b.set.buckets.len → C i = (b.chain i).filter (· ∈ M))
    (howed : s.set.owed = []) (hnum : s.set.numEntry = M.card)
    (hhas : ∀ a, s.heap.Has a ↔ b.heap.Has a ∧ (b.Live a → a ∈ M))
    (hnode : ∀ a ∈ M, (b.heap.get a).Alike (s.heap.get a)) : Collected b M s := by
  have hmem : ∀ {i a}, i < b.set.buckets.len → a ∈ C i → a ∈ b.chain i ∧ a ∈ M := by
    intro i a hi ha
    rw [hC i hi] at ha
    exact ⟨(List.mem_filter.mp ha).1, by simpa using (List.mem_filter.mp ha).2⟩
  have htab : s.Table := by
    refine Table.of_chains hc (fun i hi => ?_) fun i hi a ha => ?_
    · rw [hlen] at hi
      have hs : (C i).Pairwise fun a c => b.key a < b.key c := by
        rw [hC i hi]
        exact (ht.sorted i hi).filter _
      refine hs.imp_of_mem fun {a c} ha hc hlt => ?_
      show (s.heap.get a).key < (s.heap.get c).key
      rw [(hnode a (hmem hi ha).2).key, (hnode c (hmem hi hc).2).key]
      exact hlt
    · rw [hlen] at hi
      obtain ⟨h1, h2⟩ := hmem hi ha
      obtain ⟨h3, h4⟩ := ht.home i hi a h1
      have hn := hnode a h2
      rw [hn.hash, hexp]
      exact ⟨hn.hashOk h3, h4⟩
  have hchain : ∀ i, i < b.set.buckets.len → s.chain i = (b.chain i).filter (· ∈ M) :=
    fun i hi => (Store.chain_eq hc (by rw [hlen]; exact hi)).trans (hC i hi)
  refine ⟨⟨htab, ?_⟩, howed, hlen, hexp, hchain, hnum, hhas, hnode⟩
  have hset : s.nodes.toFinset = M := by
    ext a
    rw [List.mem_toFinset, mem_nodes]
    constructor
    · rintro ⟨i, hi, ha⟩
      rw [hlen] at hi
      rw [hchain i hi] at ha
      simpa using (List.mem_filter.mp ha).2
    · intro ha
      obtain ⟨i, hi, hb⟩ := hM a ha
      refine ⟨i, hlen.symm ▸ hi, ?_⟩
      rw [hchain i hi]
      exact List.mem_filter.mpr ⟨hb, by simpa using ha⟩
  unfold Counted
  rw [hnum, howed, ← hset, List.toFinset_card_of_nodup (nodes_nodup hc)]
  rfl

/-- **Sweeping a marked table**: `gc_unmarked`, then `unmark_nodes`. -/
theorem wp_sweepNodes (ht : b.Table) (howed : b.set.owed = []) (hb : Markable b.Live rank b)
    (h : MarkedNodes b M s) (hlen : b.set.buckets.len ≤ shl64 b.set.sizeExp)
    (hbad : ¬ b.Sized → bad) {n : Nat} (hn : tol ∨ b.heap.brk < n) :
    wp (collecting b.Live t tol bad)
      (LockFreeSet.gcUnmarked n >>= fun _ => LockFreeSet.unmarkNodes n)
      (fun _ s' => Collected b M s') s := by
  have hle := h.marks.leveled
  have hlive := hle.live ht.chains
  have hsw := h.sweepable ht.chains hb
  have hbuck := hle.buckets
  have hswp := wp_gcUnmarked (t := t) (n := n) hsw
    (by rw [hbuck, hle.sizeExp]; exact hlen) (fun hs => hbad fun hb => hs (hle.sized.mpr hb))
    (by rw [hle.brk]; exact hn)
  rw [hlive] at hswp
  refine wp_seq hswp ?_
  rintro _ s₁ ⟨C, h1, hnum, hC⟩
  have hself := chains_self h1.chains
  have hlen1 : s₁.set.buckets.len = b.set.buckets.len := h1.len.trans (by rw [hbuck])
  have hexp1 : s₁.set.sizeExp = b.set.sizeExp := h1.sizeExp.trans hle.sizeExp
  have hch1 : ∀ i, i < b.set.buckets.len → s₁.chain i = (b.chain i).filter (· ∈ M) := by
    intro i hi
    rw [Store.chain_eq h1.chains (by rw [hlen1]; exact hi), hC i (by rw [hbuck]; exact hi),
      hle.chain_eq ht.chains hi]
  have hlive1 : ∀ a, s₁.Live a ↔ a ∈ M := by
    intro a
    constructor
    · rintro ⟨i, hi, ha⟩
      rw [hch1 i (hlen1 ▸ hi)] at ha
      simpa using (List.mem_filter.mp ha).2
    · intro ha
      obtain ⟨i, hi, hb⟩ := h.survivors.live a ha
      refine ⟨i, hlen1.symm ▸ hi, ?_⟩
      rw [hch1 i hi]
      exact List.mem_filter.mpr ⟨hb, by simpa using ha⟩
  refine wp_mono ?_ (wp_unmarkNodes hself (fun a ha => h.survivors.live a ((hlive1 a).mp ha))
    (by rw [hlen1, hexp1]; exact hlen) (fun hs => hbad fun hb => hs ?_)
    (by rw [h1.brk, hle.brk]; exact hn) (Leveled.self s₁))
  swap
  · unfold Sized at hb ⊢
    rw [hlen1, hexp1]
    exact hb
  intro _ s₂ h2
  refine Collected.of_chains ht h.survivors.live (h2.chains hself) (by rw [h2.buckets, hlen1])
    (h2.sizeExp.trans hexp1) hch1 (h2.owed.trans (h1.owed.trans (hle.owed.trans howed)))
    (h2.numEntry.trans (hnum.trans h.numMarks)) (fun a => ?_) fun a ha => ?_
  · rw [h2.has, h1.has, hle.has, hlive]
    refine and_congr_right fun _ => forall_congr' fun hla => ?_
    constructor
    · rintro (hn | ⟨i, hi, ha⟩)
      · cases hn
      · rw [hC i hi] at ha
        simpa using (List.mem_filter.mp ha).2
    · intro ha
      obtain ⟨i, hi, hai⟩ := hla
      refine Or.inr ⟨i, by rw [hbuck]; exact hi, ?_⟩
      rw [hC i (by rw [hbuck]; exact hi), hle.chain_eq ht.chains hi]
      exact List.mem_filter.mpr ⟨hai, by simpa using ha⟩
  · have hla := h.survivors.live a ha
    have hl1 : s₁.Live a := (hlive1 a).mpr ha
    have hh1 : s₁.heap.Has a := hself.has _ hl1.choose_spec.1 a hl1.choose_spec.2
    have ha1 := h1.node a hh1
    refine ⟨?_, (h2.low a).trans (ha1.low.trans (hle.low a)),
      (h2.high a).trans (ha1.high.trans (hle.high a)),
      (h2.hash a).trans (ha1.hash.trans (hle.hash a))⟩
    rw [h2.level a hh1]
    unfold cleared
    rw [if_pos (mem_nodes.mpr hl1), ha1.level, hle.level a (ht.has hla)]
    unfold marked
    rw [if_pos ha, unmark_or_mark]
    exact unmark_of_not_marked (by simpa [Node.Marked] using hb.unmarked a hla)

/-- The table `b`, but for the counts of references. -/
structure Restored (b s : Store) : Prop where
  buckets : s.set.buckets = b.set.buckets
  sizeExp : s.set.sizeExp = b.set.sizeExp
  numEntry : s.set.numEntry = b.set.numEntry
  owed : s.set.owed = b.set.owed
  brk : s.heap.brk = b.heap.brk
  has : ∀ a, s.heap.Has a ↔ b.heap.Has a
  node : ∀ a, b.heap.Has a → (b.heap.get a).Recounted (s.heap.get a)

theorem Restored.inv (h : Restored b s) (hb : b.Inv) :
    s.Inv ∧ ∀ j, j < b.set.buckets.len → s.chain j = b.chain j :=
  hb.congr h.buckets h.sizeExp h.numEntry h.owed fun a ha =>
    ⟨(h.has a).mpr (hb.table.has ha), h.node a (hb.table.has ha)⟩

theorem Restored.sized (h : Restored b s) : s.Sized ↔ b.Sized := by
  unfold Sized
  rw [h.buckets, h.sizeExp]

/-- **Giving a sweep up**: `unmark_nodes` after `mark_nodes`. -/
theorem wp_restore (ht : b.Table) (hb : Markable b.Live rank b) (h : MarkedNodes b M s)
    (hlen : b.set.buckets.len ≤ shl64 b.set.sizeExp) (hbad : ¬ b.Sized → bad) {n : Nat}
    (hn : tol ∨ b.heap.brk < n) :
    wp (collecting b.Live t tol bad) (LockFreeSet.unmarkNodes n) (fun _ s' => Restored b s') s := by
  have hle := h.marks.leveled
  have hlive := hle.live ht.chains
  refine wp_mono ?_ (wp_unmarkNodes (chains_self (hle.chains ht.chains))
    (fun a ha => by rw [hlive] at ha; exact ha) (by rw [hle.buckets, hle.sizeExp]; exact hlen)
    (fun hs => hbad fun hb => hs (hle.sized.mpr hb)) (by rw [hle.brk]; exact hn) (Leveled.self s))
  intro _ s' h'
  refine ⟨h'.buckets.trans hle.buckets, h'.sizeExp.trans hle.sizeExp,
    h'.numEntry.trans hle.numEntry, h'.owed.trans hle.owed, h'.brk.trans hle.brk,
    fun a => (h'.has a).trans (hle.has a), fun a ha => ⟨?_, (h'.low a).trans (hle.low a),
      (h'.high a).trans (hle.high a), (h'.next a).trans (hle.next a),
      (h'.hash a).trans (hle.hash a)⟩⟩
  rw [h'.level a ((hle.has a).mpr ha)]
  unfold cleared
  rw [hle.level a ha]
  unfold marked
  by_cases hla : b.Live a
  · have hun := unmark_of_not_marked (l := (b.heap.get a).level)
      (by simpa [Node.Marked] using hb.unmarked a hla)
    rw [if_pos (mem_nodes.mpr (by rw [hlive]; exact hla))]
    split
    · rw [unmark_or_mark, hun]
    · exact hun
  · rw [if_neg (fun hm => hla (by rw [← hlive]; exact mem_nodes.mp hm)),
      if_neg fun hm => hla (h.survivors.live a hm)]

end Tobdd.Store
