import Tobdd.Sessions

/-!
# What gc and enter_op get done

    Reach.gc_exact: `gc` frees exactly the nodes that no referenced one reaches
    Reach.enterOp_progress: `enter_op` on a full table doubles it or frees a quarter of it, if and
                            only if the table can double or a quarter of it is not needed; but a
                            quarter of less than four buckets is none to `enter_op`
-/

namespace Tobdd

open Resume

namespace World

/-- A node of manager `m` that is referenced, or that a referenced one reaches. -/
def Needed (w : World) (m : Nat) (a : Bdd) : Prop :=
  ∃ r, (w.store m).Live r ∧ (w.heap.get r).refCnt ≠ 0 ∧ w.heap.Reaches r a

/-- `gc` on manager `m` has freed the nodes that are not needed, has left the others as they
were but for their links, and has answered with their number. -/
structure Exact (m : Nat) (w : World) (c : Nat) (w' : World) : Prop where
  live : ∀ a, (w'.store m).Live a ↔ (w.store m).Live a ∧ w.Needed m a
  freed : ∀ a, w.heap.Has a → (¬ w'.heap.Has a ↔ (w.store m).Live a ∧ ¬ w.Needed m a)
  same : ∀ a, (w'.store m).Live a → (w'.heap.get a).level = (w.heap.get a).level ∧
    (w'.heap.get a).low = (w.heap.get a).low ∧ (w'.heap.get a).high = (w.heap.get a).high ∧
    (w'.heap.get a).hash = (w.heap.get a).hash ∧ (w'.heap.get a).refCnt = (w.heap.get a).refCnt
  unmarked : ∀ a, (w'.store m).Live a → (w'.heap.get a).level &&& MARK = 0
  count : ∃ M : Finset Bdd, (∀ a, a ∈ M ↔ (w'.store m).Live a) ∧ c = M.card

variable {w w' : World} {m : Nat} {a : Bdd}

theorem Needed.live (hi : w.Inv) (hm : w.made m = true) (h : w.Needed m a) : (w.store m).Live a := by
  obtain ⟨r, hr, -, hra⟩ := h
  exact hra.mem (hi.table m hm).nodes.child_mem hr

/-- The number of nodes is what the counter says. -/
theorem Sound.card (h : w.Sound m) {M : Finset Bdd} (hM : ∀ a, a ∈ M ↔ (w.store m).Live a) :
    (w.mgr m).set.numEntry = M.card := by
  have hcount := h.inv.counted
  unfold Store.Counted at hcount
  have howed : (w.store m).set.owed = [] := h.owed
  rw [howed] at hcount
  have hnodes : M = (w.store m).nodes.toFinset := by
    ext a
    rw [hM, List.mem_toFinset, Store.mem_nodes]
  rw [hnodes, List.toFinset_card_of_nodup (Store.nodes_nodup h.inv.table.chains)]
  exact hcount

end World

namespace Manager

open World

variable {t m n : Nat} {w w' : World}

theorem enough_of_le (h : 2 * w.heap.brk + (w.consts m).numVars + 2 ≤ n) : Enough w m n := by
  constructor <;> omega

/-! ## gc -/

/-- **`gc` is exact**, and `get_node_num` then says what it answered. -/
theorem Reach.gc_exact (h : Reach t w) (hw : w.Whole) (hm : w.made m = true) :
    ∃ N, ∀ n, N ≤ n → ∃ c w', run (exec m t) (gc n) w = .ok (c, w') ∧ Exact m w c w' ∧
      run (exec m t) getNodeNum w' = .ok (c, w') := by
  have hr := h.resting hw
  refine ⟨2 * w.heap.brk + (w.consts m).numVars + 2, fun n hn => ?_⟩
  rcases run_gc hr.inv hm (hr.idle m hm) t n with
    ⟨c, w', hrun, hs, -, hc, hlive, M, hcard, hM⟩ | ⟨-, hen⟩
  · have hsound := hs.sound hr.inv hm hc
    have hl : ∀ a, (w'.store m).Live a ↔ (w.store m).Live a ∧ w.Needed m a := fun a =>
      (hlive a).trans ⟨fun hd => ⟨Needed.live hr.inv hm hd, hd⟩, fun hd => hd.2⟩
    refine ⟨c, w', hrun, ?_, ?_⟩
    · refine ⟨hl, fun a ha => ?_, fun a ha => ?_, fun a ha => ?_, M, hM, hcard⟩
      · rw [show w'.heap.Has a ↔ _ from hc.tidied.has a, hl]
        constructor
        · intro hno
          by_contra hnot
          refine hno ⟨ha, fun hla => ⟨hla, ?_⟩⟩
          by_contra hnd
          exact hnot ⟨hla, hnd⟩
        · rintro ⟨hla, hnd⟩ ⟨-, hkeep⟩
          exact hnd (hkeep hla).2
      · have hnode := hc.tidied.node a ha
        exact ⟨hnode.level, hnode.low, hnode.high, hnode.hash, hs.refs a⟩
      · simpa [Node.Marked] using hsound.unmarked a ha
    · have hnum : (w'.mgr m).set.numEntry = c := (hsound.card hM).trans hcard.symm
      rw [← hnum]
      exact congrArg (fun v => Except.ok ((w'.mgr m).set.numEntry, v)) (put_self w' m)
  · exact absurd (enough_of_le hn) hen

/-- A node that is no child is reached from itself alone. -/
theorem eq_of_reaches {a b : Bdd} (hp : ∀ b ∈ (w.store m).nodes, (w.heap.get b).low ≠ a ∧
      (w.heap.get b).high ≠ a) (hi : w.Inv) (hm : w.made m = true) (hb : (w.store m).Live b)
    (hba : w.heap.Reaches b a) : a = b := by
  rcases Relation.ReflTransGen.cases_tail hba with h | ⟨c, hbc, -, -, hc⟩
  · exact h
  · have hlive : (w.store m).Live c := Heap.Reaches.mem hbc (hi.table m hm).nodes.child_mem hb
    obtain ⟨hl, hh⟩ := hp c (Store.mem_nodes.mpr hlive)
    exact (hc.elim (fun h => hl h.symm) fun h => hh h.symm).elim

/-- ... and not needed without a reference. -/
theorem not_needed {a : Bdd} (h0 : (w.heap.get a).refCnt = 0)
    (hp : ∀ b ∈ (w.store m).nodes, (w.heap.get b).low ≠ a ∧ (w.heap.get b).high ≠ a)
    (hi : w.Inv) (hm : w.made m = true) : ¬ w.Needed m a := by
  rintro ⟨r, hr, href, hra⟩
  obtain rfl := eq_of_reaches hp hi hm hr hra
  exact href h0

/-- The disjunction was given back and the conjunction was not. -/
theorem Reach.gc_exact_errand : ∃ n c w',
    run (exec 0 0) (gc n) (errandStates 3).world = .ok (c, w') ∧ Exact 0 (errandStates 3).world c w' ∧
    run (exec 0 0) getNodeNum w' = .ok (c, w') ∧ (w'.store 0).Live both ∧ ¬ w'.heap.Has either := by
  obtain ⟨hr, hw, hm⟩ := errand_reach (by decide : 3 ≤ 5)
  obtain ⟨N, hN⟩ := Reach.gc_exact hr hw hm
  obtain ⟨c, w', hrun, hex, hnum⟩ := hN N (Nat.le_refl N)
  have hboth : ((errandStates 3).world.store 0).Live both := by decide +kernel
  have heither : ((errandStates 3).world.store 0).Live either := by decide +kernel
  have hneed : (errandStates 3).world.Needed 0 both :=
    ⟨both, hboth, by decide +kernel, .refl⟩
  refine ⟨N, c, w', hrun, hex, hnum, (hex.live both).mpr ⟨hboth, hneed⟩, ?_⟩
  have hi := (hr.resting hw).inv
  exact (hex.freed either ((hi.table 0 hm).nodes.has either heither)).mpr
    ⟨heither, not_needed (by decide +kernel) (by decide +kernel) hi hm⟩

/-- Where the constants were freed, a collection counts nodes of another manager, and leaves
them marked. -/
theorem not_gc_exact : ∃ w, Called 0 w ∧ w.made 0 = true ∧ ∃ n c w',
    run (exec 0 0) (gc n) w = .ok (c, w') ∧ c = 3 ∧ (w'.store 0).nodes.length = 1 ∧
    (∃ a, (w'.store 1).Live a ∧ (w'.heap.get a).level &&& MARK ≠ 0) ∧ ¬ Exact 0 w c w' := by
  have hval : (match run (exec 0 0) (gc 40) astray with
      | .ok (c, w') => decide (c = 3 ∧ (w'.store 0).nodes.length = 1 ∧ (w'.store 1).Live 1 ∧
          (w'.heap.get 1).level &&& MARK ≠ 0)
      | .error _ => false) = true := by
    decide +kernel
  refine ⟨astray, astray_called.1, by decide +kernel, ?_⟩
  cases hrun : run (exec 0 0) (gc 40) astray with
  | error e =>
    rw [hrun] at hval
    cases hval
  | ok y =>
    obtain ⟨c, w'⟩ := y
    rw [hrun] at hval
    obtain ⟨hc, hlen, hlive, hmark⟩ := of_decide_eq_true hval
    refine ⟨40, c, w', hrun, hc, hlen, ⟨1, hlive, hmark⟩, fun hex => ?_⟩
    obtain ⟨M, hM, hcard⟩ := hex.count
    have hsub : M ⊆ (w'.store 0).nodes.toFinset := fun a ha =>
      List.mem_toFinset.mpr (Store.mem_nodes.mpr ((hM a).mp ha))
    have hle := (Finset.card_le_card hsub).trans (List.toFinset_card_le _)
    omega

/-! ## enter_op -/

/-- The array of manager `m` has doubled, or a quarter of its length, and one at least, of the
nodes were freed. -/
def Progress (m : Nat) (w w' : World) : Prop :=
  (w'.mgr m).set.buckets.len = 2 * (w.mgr m).set.buckets.len ∨
    ∃ S : Finset Bdd, (∀ a ∈ S, (w.store m).Live a ∧ ¬ w'.heap.Has a) ∧
      (w.mgr m).set.buckets.len ≤ 4 * S.card ∧ 1 ≤ S.card

/-- The array of manager `m` can double and a quarter of its length is one at least, or as many of
the nodes, and one at least, are not needed. -/
def Cleanable (m : Nat) (w : World) : Prop :=
  (4 ≤ (w.mgr m).set.buckets.len ∧ (w.mgr m).set.buckets.len < 2 ^ 30) ∨
    ∃ S : Finset Bdd, (∀ a ∈ S, (w.store m).Live a ∧ ¬ w.Needed m a) ∧
      (w.mgr m).set.buckets.len ≤ 4 * S.card ∧ 1 ≤ S.card

theorem wrapSub_eq {a b : Nat} (h : b ≤ a) : wrapSub a b = (a - b) % 2 ^ 64 := by
  unfold wrapSub
  have h1 := UInt64.ofNat_add b (a - b)
  rw [Nat.add_sub_cancel' h] at h1
  have h2 : UInt64.ofNat a - UInt64.ofNat b = UInt64.ofNat (a - b) := by
    rw [h1, UInt64.add_comm, UInt64.add_sub_cancel]
  rw [h2, UInt64.toNat_ofNat']

theorem wrapSub_le {a b : Nat} (h : b ≤ a) : wrapSub a b ≤ a - b := by
  rw [wrapSub_eq h]
  exact Nat.mod_le _ _

/-- A power of two from four on is four times something. -/
theorem four_dvd_shl64 {e : Nat} (h : 4 ≤ shl64 e) : 4 * (shl64 e / 4) = shl64 e := by
  unfold shl64 at h ⊢
  generalize e % 64 = k at h
  match k with
  | 0 => exact absurd h (by decide)
  | 1 => exact absurd h (by decide)
  | k + 2 =>
    rw [Nat.pow_add]
    omega

/-- A power of two below four is of one of two exponents. -/
theorem shl64_small {e : Nat} (h : shl64 e < 4) : e % 64 ≤ 1 := by
  unfold shl64 at h
  by_contra hlt
  have h2 : 2 ^ 2 ≤ 2 ^ (e % 64) := Nat.pow_le_pow_right (by decide) (by omega)
  omega

section
variable (hi : w.Resting) (hm : w.made m = true)
include hi hm

/-- What a collection has freed. -/
theorem freed_card {w₁ : World} {M : Finset Bdd} (hM : (w.store m).Survivors M)
    (hc : Cleaned 0 m w w₁) (hlive : ∀ a, (w₁.store m).Live a ↔ a ∈ M) :
    ∃ S : Finset Bdd, (∀ a, a ∈ S ↔ (w.store m).Live a ∧ ¬ w₁.heap.Has a) ∧
      S.card = (w.mgr m).set.numEntry - M.card := by
  classical
  have hnum := (hi.inv.sound hm).card (M := (w.store m).nodes.toFinset) fun a => by
    rw [List.mem_toFinset, Store.mem_nodes]
  have hsub : M ⊆ (w.store m).nodes.toFinset := fun a ha => by
    rw [List.mem_toFinset, Store.mem_nodes]
    exact hM.live a ha
  refine ⟨(w.store m).nodes.toFinset \ M, fun a => ?_, ?_⟩
  · rw [Finset.mem_sdiff, List.mem_toFinset, Store.mem_nodes,
      show w₁.heap.Has a ↔ _ from hc.tidied.has a, hlive]
    constructor
    · exact fun ⟨h1, h2⟩ => ⟨h1, fun h => h2 (h.2 h1)⟩
    · exact fun ⟨h1, h2⟩ => ⟨h1, fun h => h2 ⟨(hi.inv.table m hm).nodes.has a h1, fun _ => h⟩⟩
  · rw [Finset.card_sdiff_of_subset hsub, hnum]

/-- What is collected, where it matters for the progress. -/
theorem progress_of_collected {w₁ : World} {M : Finset Bdd} (hM : (w.store m).Survivors M)
    (hc : Cleaned 0 m w w₁) (hlive : ∀ a, (w₁.store m).Live a ↔ a ∈ M)
    (hq : shl64 (w.mgr m).set.sizeExp / 4 ≤ wrapSub (w.mgr m).set.numEntry M.card)
    (hcond : 4 ≤ shl64 (w.mgr m).set.sizeExp ∨ ∃ a, (w.store m).Live a ∧ ¬ w.Needed m a) :
    Progress m w w₁ := by
  obtain ⟨S, hS, hcard⟩ := freed_card hi hm hM hc hlive
  have hlen : (w.mgr m).set.buckets.len = shl64 (w.mgr m).set.sizeExp := (hi.inv.table m hm).sized
  have hle : M.card ≤ (w.mgr m).set.numEntry := by
    rw [(hi.inv.sound hm).card (M := (w.store m).nodes.toFinset) fun a => by
      rw [List.mem_toFinset, Store.mem_nodes]]
    refine Finset.card_le_card fun a ha => ?_
    rw [List.mem_toFinset, Store.mem_nodes]
    exact hM.live a ha
  have hfreed := hq.trans (wrapSub_le hle)
  rw [← hcard] at hfreed
  refine Or.inr ⟨S, fun a ha => (hS a).mp ha, ?_, ?_⟩
  · rw [hlen]
    rcases Nat.lt_or_ge (shl64 (w.mgr m).set.sizeExp) 4 with hsmall | hbig
    · obtain ⟨a, ha, hd⟩ := hcond.resolve_left (Nat.not_le_of_lt hsmall)
      -- a dead node is gone
      have hpos : 1 ≤ S.card := Finset.card_pos.mpr ⟨a, (hS a).mpr ⟨ha, fun hh => ?_⟩⟩
      · omega
      · exact hd (hM.origin a ((hlive a).mp (((hc.tidied.has a).mp hh).2 ha)))
    · have := four_dvd_shl64 hbig
      omega
  · rcases hcond with hbig | ⟨a, ha, hd⟩
    · have := four_dvd_shl64 hbig
      omega
    · refine Finset.card_pos.mpr ⟨a, (hS a).mpr ⟨ha, fun hh => ?_⟩⟩
      exact hd (hM.origin a ((hlive a).mp (((hc.tidied.has a).mp hh).2 ha)))

/-- A table that has grown is twice as long. -/
theorem grown_len {w₁ : World} (hc : Cleaned 1 m w w₁)
    (hlive : ∀ a, (w₁.store m).Live a ↔ (w.store m).Live a) :
    (w₁.mgr m).set.buckets.len = 2 * (w.mgr m).set.buckets.len ∧
      (w.mgr m).set.buckets.len < 2 ^ 30 := by
  have ht := hi.inv.table m hm
  have hsz : (w.mgr m).set.buckets.len = shl64 (w.mgr m).set.sizeExp := ht.sized
  have hlen : (w.mgr m).set.buckets.len = rangeI32 (w.mgr m).set.sizeExp := ht.len
  have hlen₁ : (w₁.mgr m).set.buckets.len = rangeI32 (w₁.mgr m).set.sizeExp := hc.tidied.len
  have hexp := hc.exp
  -- the constant 1 is in some bucket, so there is one
  obtain ⟨i, hi₁, -⟩ := (hlive _).mpr ht.nodes.top
  have hpos : 0 < (w₁.mgr m).set.buckets.len := Nat.lt_of_le_of_lt (Nat.zero_le i) hi₁
  have hpos₀ : 0 < (w.mgr m).set.buckets.len := by
    rw [hsz]
    exact shl64_pos _
  rw [hlen₁, hexp] at hpos ⊢
  rw [hlen] at hpos₀ ⊢
  unfold rangeI32 at hpos hpos₀ ⊢
  split at hpos
  · exact absurd hpos (Nat.lt_irrefl 0)
  · next h1 =>
    split at hpos₀
    · exact absurd hpos₀ (Nat.lt_irrefl 0)
    · next h0 =>
      have hmod : ((w.mgr m).set.sizeExp + 1) % 32 = (w.mgr m).set.sizeExp % 32 + 1 := by omega
      rw [if_neg h1, if_neg h0, hmod, Nat.pow_succ']
      exact ⟨rfl, Nat.pow_lt_pow_right (by decide) (by omega)⟩

/-- Where every node is needed and less than four buckets are there, nothing happens. -/
theorem no_progress (hfull : Loaded w m) (hsmall : shl64 (w.mgr m).set.sizeExp < 4)
    (hall : ∀ a, (w.store m).Live a → w.Needed m a) (hn : Enough w m n) :
    ∃ w', run (exec m t) (enterOp n) w = .ok ((), w') ∧ ¬ Progress m w w' := by
  have hexp := shl64_small hsmall
  rcases run_enterOp hi.inv hm (hi.idle m hm) t n with ⟨w₁, w', he, hent⟩ | ⟨e, -, hstop⟩
  · refine ⟨w', he, ?_⟩
    have hlen' : (w'.mgr m).set.buckets.len = (w₁.mgr m).set.buckets.len := by
      rw [hent.eq, withLock_mgr]
    have hheap : w'.heap = w₁.heap := by rw [hent.eq]; rfl
    rcases hent.entering with ⟨h0, -⟩ | ⟨-, M, hM, ⟨hfew, -, -⟩ | ⟨-, hc, hlive⟩⟩
    · exact absurd hfull h0
    · rw [Nat.div_eq_of_lt hsmall] at hfew
      exact absurd hfew (Nat.not_lt_zero _)
    · have hlen : (w₁.mgr m).set.buckets.len = (w.mgr m).set.buckets.len := by
        have h1 : (w₁.mgr m).set.buckets.len = rangeI32 (w₁.mgr m).set.sizeExp := hc.tidied.len
        have h2 : (w.mgr m).set.buckets.len = rangeI32 (w.mgr m).set.sizeExp :=
          (hi.inv.table m hm).len
        rw [h1, h2, hc.exp]
        rfl
      have hpos : 0 < (w.mgr m).set.buckets.len := by
        rw [show (w.mgr m).set.buckets.len = shl64 _ from (hi.inv.table m hm).sized]
        exact shl64_pos _
      rintro (hd | ⟨S, hS, -, hone⟩)
      · rw [hlen', hlen] at hd
        omega
      · obtain ⟨a, ha⟩ := Finset.card_pos.mp hone
        obtain ⟨hla, hno⟩ := hS a ha
        obtain ⟨r, hr, hne, hra⟩ := hall a hla
        rw [hheap] at hno
        exact hno (hc.tidied.inv.table.has (hent.shrinks.kept r a hr hne hra))
  · rcases hstop with ⟨-, h⟩ | ⟨-, -, h⟩
    · exact absurd hn h
    · exact absurd (rangeI32_eq_shl64 (by omega)) h

/-- What `enter_op` leaves, where the table can be cleaned up. -/
theorem progress_of_entered {w₁ w' : World} (hfull : Loaded w m) (hent : Entered m t w w₁ w')
    (hclean : Cleanable m w) : Progress m w w' := by
  have hsz : (w.mgr m).set.buckets.len = shl64 (w.mgr m).set.sizeExp := (hi.inv.table m hm).sized
  have hcond : 4 ≤ shl64 (w.mgr m).set.sizeExp ∨ ∃ a, (w.store m).Live a ∧ ¬ w.Needed m a := by
    rw [← hsz]
    rcases hclean with ⟨hbig, -⟩ | ⟨S, hS, -, hone⟩
    · exact Or.inl hbig
    · obtain ⟨a, ha⟩ := Finset.card_pos.mp hone
      exact Or.inr ⟨a, hS a ha⟩
  have hpr : Progress m w w₁ := by
    rcases hent.entering with ⟨h0, -⟩ | ⟨-, M, hM, ⟨-, hc, hl⟩ | ⟨hq, hc, hl⟩⟩
    · exact absurd hfull h0
    · exact Or.inl (grown_len hi hm hc hl).1
    · exact progress_of_collected hi hm hM hc hl hq hcond
  rw [hent.eq]
  unfold Progress
  rw [withLock_mgr]
  exact hpr

/-- Where `enter_op` on a full table has made progress, the table could be cleaned up. -/
theorem cleanable_of_entered {w₁ w' : World} (hfull : Loaded w m) (hent : Entered m t w w₁ w')
    (hp : Progress m w w') : Cleanable m w := by
  have ht := hi.inv.table m hm
  have hsz : (w.mgr m).set.buckets.len = shl64 (w.mgr m).set.sizeExp := ht.sized
  rcases hent.entering with ⟨h0, -⟩ | ⟨-, M, hM, ⟨hfew, hc, hl⟩ | ⟨-, hc, hl⟩⟩
  · exact absurd hfull h0
  · refine Or.inl ⟨?_, (grown_len hi hm hc hl).2⟩
    rw [hsz]
    omega
  · have hlen : (w'.mgr m).set.buckets.len = (w.mgr m).set.buckets.len := by
      have h1 : (w₁.mgr m).set.buckets.len = rangeI32 (w₁.mgr m).set.sizeExp := hc.tidied.len
      have h2 : (w.mgr m).set.buckets.len = rangeI32 (w.mgr m).set.sizeExp := ht.len
      rw [hent.eq, withLock_mgr, h1, h2, hc.exp]
      rfl
    rcases hp with hd | ⟨S, hS, hcard⟩
    · have := shl64_pos (w.mgr m).set.sizeExp
      omega
    · refine Or.inr ⟨S, fun a ha => ⟨(hS a ha).1, ?_⟩, hcard⟩
      rintro ⟨r, hr, hne, hra⟩
      apply (hS a ha).2
      rw [hent.eq]
      exact hc.tidied.inv.table.has (hent.shrinks.kept r a hr hne hra)

/-- There are not more nodes than addresses. -/
theorem numEntry_lt (hsmall : w.heap.brk ≤ 2 ^ 64) : (w.mgr m).set.numEntry < 2 ^ 64 := by
  have ht := hi.inv.table m hm
  have hsub : (w.store m).nodes.toFinset ⊆ (Finset.range w.heap.brk).erase 0 := by
    intro a ha
    rw [List.mem_toFinset, Store.mem_nodes] at ha
    have hhas := ht.nodes.has a ha
    exact Finset.mem_erase.mpr ⟨hhas.ne_zero, Finset.mem_range.mpr hhas.lt_brk⟩
  have hbrk : 0 < w.heap.brk := Nat.lt_of_le_of_lt (Nat.zero_le _) (ht.nodes.has _ ht.nodes.top).lt_brk
  have hle := Finset.card_le_card hsub
  have hlt := Finset.card_erase_lt_of_mem (Finset.mem_range.mpr hbrk)
  rw [← (hi.inv.sound hm).card (M := (w.store m).nodes.toFinset) fun a => by
    rw [List.mem_toFinset, Store.mem_nodes]] at hle
  rw [Finset.card_range] at hlt
  omega

/-- Where the array cannot double, the nodes that are not needed are collected. -/
theorem not_growing (hsmall : w.heap.brk ≤ 2 ^ 64) (hclean : Cleanable m w)
    (hpanic : rangeI32 ((w.mgr m).set.sizeExp + 1) ≠ shl64 ((w.mgr m).set.sizeExp + 1)) :
    ¬ Growing w m := by
  rintro ⟨-, M, hM, hfew⟩
  have hsz : (w.mgr m).set.buckets.len = shl64 (w.mgr m).set.sizeExp := (hi.inv.table m hm).sized
  have hexp : 30 ≤ (w.mgr m).set.sizeExp % 64 := by
    by_contra hlt
    exact hpanic (rangeI32_eq_shl64 (by omega))
  have hbig : 2 ^ 30 ≤ shl64 (w.mgr m).set.sizeExp := Nat.pow_le_pow_right (by decide) hexp
  rw [Cleanable, hsz] at hclean
  obtain ⟨S, hS, hcard, -⟩ := hclean.resolve_left fun h => by omega
  -- what is not needed is not marked
  have hdis : Disjoint S M := Finset.disjoint_left.mpr fun a hs hm => (hS a hs).2 (hM.origin a hm)
  have hsub : S ∪ M ⊆ (w.store m).nodes.toFinset := by
    intro a ha
    rw [List.mem_toFinset, Store.mem_nodes]
    exact (Finset.mem_union.mp ha).elim (fun h => (hS a h).1) fun h => hM.live a h
  have hle := Finset.card_le_card hsub
  rw [Finset.card_union_of_disjoint hdis,
    ← (hi.inv.sound hm).card (M := (w.store m).nodes.toFinset) fun a => by
      rw [List.mem_toFinset, Store.mem_nodes]] at hle
  have hlt := numEntry_lt hi hm hsmall
  rw [wrapSub_eq (by omega), Nat.mod_eq_of_lt (by omega)] at hfew
  omega

end

/-- **`enter_op` on a full table returns and makes progress** if and only if the table can be
cleaned up. -/
theorem Reach.enterOp_progress (h : Reach t w) (hw : w.Whole) (hm : w.made m = true)
    (hsmall : w.heap.brk ≤ 2 ^ 64) (hfull : Loaded w m) :
    (∃ N, ∀ n, N ≤ n → ∃ w', run (exec m t) (enterOp n) w = .ok ((), w') ∧ Progress m w w') ↔
      Cleanable m w := by
  have hi := h.resting hw
  constructor
  · rintro ⟨N, hN⟩
    obtain ⟨w', hrun, hp⟩ := hN N (Nat.le_refl N)
    rcases run_enterOp hi.inv hm (hi.idle m hm) t N with ⟨w₁, w₂, he, hent⟩ | ⟨e, he, -⟩
    · obtain rfl := (Prod.mk.inj (Except.ok.inj (he.symm.trans hrun))).2
      exact cleanable_of_entered hi hm hfull hent hp
    · cases he.symm.trans hrun
  · intro hclean
    refine ⟨2 * w.heap.brk + (w.consts m).numVars + 2, fun n hn => ?_⟩
    rcases run_enterOp hi.inv hm (hi.idle m hm) t n with ⟨w₁, w₂, he, hent⟩ | ⟨e, -, hstop⟩
    · exact ⟨w₂, he, progress_of_entered hi hm hfull hent hclean⟩
    · rcases hstop with ⟨-, hno⟩ | ⟨-, hgrow, hpanic⟩
      · exact absurd (enough_of_le hn) hno
      · exact absurd hgrow (not_growing hi hm hsmall hclean hpanic)

/-- A table of two buckets with the four nodes of one variable. -/
theorem single_loaded : Reach 0 (single 0 8 1) ∧ (single 0 8 1).Whole ∧
    (single 0 8 1).made 0 = true ∧ Loaded (single 0 8 1) 0 ∧
    shl64 ((single 0 8 1).mgr 0).set.sizeExp = 2 ∧
    ∀ a, ((single 0 8 1).store 0).Live a → (single 0 8 1).Needed 0 a := by
  obtain ⟨hr, hw, hm⟩ := single_ready 0 8 1 (by decide) (by decide)
  obtain ⟨hf, -⟩ := single_founded 0 8 1 (by decide) (by decide)
  have hexp : ((single 0 8 1).mgr 0).set.sizeExp = 65 := hf.tableExp.trans (by decide)
  refine ⟨hr, hw, hm, ?_, ?_, fun a ha => ⟨a, ha, ?_, .refl⟩⟩
  · unfold Loaded
    rw [hexp, hf.count]
    decide
  · rw [hexp]
    rfl
  · rw [hf.refs a ha]
    decide

/-- A table of four buckets with these nodes doubles. -/
theorem Reach.enterOp_progress_single : ∃ n w',
    run (exec 0 0) (enterOp n) (single 2 8 1) = .ok ((), w') ∧ Progress 0 (single 2 8 1) w' := by
  obtain ⟨hr, hw, hm⟩ := single_ready 2 8 1 (by decide) (by decide)
  have hfull : Loaded (single 2 8 1) 0 := by
    unfold Loaded
    decide +kernel
  obtain ⟨N, hN⟩ := (Reach.enterOp_progress hr hw hm (by decide +kernel) hfull).mpr
    (Or.inl (by decide +kernel))
  exact ⟨N, hN N (Nat.le_refl N)⟩

/-- The table of two buckets stays as it is. -/
theorem enterOp_stuck : ∃ n w', run (exec 0 0) (enterOp n) (single 0 8 1) = .ok ((), w') ∧
    ¬ Progress 0 (single 0 8 1) w' := by
  obtain ⟨hr, hw, hm, hfull, hsize, hall⟩ := single_loaded
  obtain ⟨w', hrun, hno⟩ := no_progress (t := 0) (hr.resting hw) hm hfull (by omega) hall
    (enough_of_le (Nat.le_refl _))
  exact ⟨_, w', hrun, hno⟩

end Manager

end Tobdd
