import Tobdd.Runs

/-!
# Looking at the whole table

`sanity_check` and `table_stat_report` of `set.rs` go along every chain and change nothing.
What such a loop answers alone is a fold over the nodes it meets (`run_eachChain`).

    run_sanityCheck: over chains that end, `sanity_check` returns if every node is in its bucket
                     and every chain goes up strictly by key, and panics if not
    run_tableStatReport: the report is the one of the lengths of the chains
    TableStatReport.of_right: what its numbers say about them
-/

namespace Tobdd

open Resume Linked

namespace LockFreeSet

/-! ## The code -/

/-- The second `assert!` of `sanity_check`, behind the node `prev_key` has. -/
def sanityBehind (currKey : Key) : Option (UInt64 × Bdd) → Prog mem Unit
  | none => return ()
  | some (_, prevPtr) => do
    let key : Key ← acc (.key prevPtr)
    if key < currKey then return () else panic

/-- The body of the inner loop of `sanity_check`; `prev_key` is the level and the node before. -/
def sanityNode (i : Nat) (curr : Bdd) (prevKey : Option (UInt64 × Bdd)) :
    Prog mem (Option (UInt64 × Bdd)) := do
  let currKey : Key ← acc (.key curr)
  let hash : UInt64 ← acc (.hash curr)
  let e : Nat ← acc .sizeExp
  if maskIdx hash e ≠ i then panic
  else do
    sanityBehind currKey prevKey
    let level : UInt64 ← acc (.level curr)
    return some (level, curr)

def sanityCheck (n : Nat) : Prog mem Unit := do
  let e : Nat ← acc .sizeExp
  Prog.forRange (shl64 e) (fun i _ => do
    let head : Bdd ← acc (.load (.head i))
    let _ ← eachNode (sanityNode i) n head none
    return ()) ()

/-- What the report says about the chains, the quotients in floating point left out. -/
structure TableStatReport where
  tableSize : Nat
  nodeCount : Nat
  emptyBuckets : Nat
  nonEmptyBuckets : Nat
  minChainLen : Nat
  maxChainLen : Nat
  histogram : Fin 9 → Nat

/-- The arm of the `match` on the length of a chain. -/
def slot (len : Nat) : Fin 9 :=
  if len = 1 then 1
  else if 2 ≤ len ∧ len ≤ 3 then 2
  else if 4 ≤ len ∧ len ≤ 7 then 3
  else if 8 ≤ len ∧ len ≤ 15 then 4
  else if 16 ≤ len ∧ len ≤ 31 then 5
  else if 32 ≤ len ∧ len ≤ 63 then 6
  else if 64 ≤ len ∧ len ≤ 127 then 7
  else 8

namespace TableStatReport

def bump (r : TableStatReport) (i : Fin 9) : Fin 9 → Nat :=
  Function.update r.histogram i (r.histogram i + 1)

/-- The rest of the body of the outer loop, for a chain of `len` nodes. -/
def add (r : TableStatReport) (len : Nat) : TableStatReport :=
  let r := { r with nodeCount := r.nodeCount + len }
  if len = 0 then { r with emptyBuckets := r.emptyBuckets + 1, histogram := r.bump 0 }
  else
    { r with
      nonEmptyBuckets := r.nonEmptyBuckets + 1
      minChainLen := if len < r.minChainLen then len else r.minChainLen
      maxChainLen := if len > r.maxChainLen then len else r.maxChainLen
      histogram := r.bump (slot len) }

/-- Before the loop: `min_chain_len` is `usize::MAX`. -/
def start (tableSize : Nat) : TableStatReport := ⟨tableSize, 0, 0, 0, 2 ^ 64 - 1, 0, fun _ => 0⟩

def finish (r : TableStatReport) : TableStatReport :=
  if r.nonEmptyBuckets = 0 then { r with minChainLen := 0 } else r

/-- The report on buckets with chains of the lengths `lens`. -/
def of (lens : List Nat) : TableStatReport := (lens.foldl add (start lens.length)).finish

end TableStatReport

def tableStatReport (n : Nat) : Prog mem TableStatReport := do
  let e : Nat ← acc .sizeExp
  let r ← Prog.forRange (shl64 e) (fun i (r : TableStatReport) => do
    let curr : Bdd ← acc (.load (.head i))
    let len ← eachNode (fun _ len => return len + 1) n curr 0
    return r.add len) (.start (shl64 e))
  return r.finish

end LockFreeSet

namespace Store

variable {s : Store} {t n : Nat} {σ : Type}

/-! ## Loops that change nothing -/

/-- The chain that hangs on a place, when the body reads only; `P` is what it needs to know of the
local value. -/
theorem run_eachNode {body : Bdd → σ → Prog mem σ} {f : σ → Bdd → Except Stop σ} (P : σ → Prop) :
    ∀ n l q x, Seg Place.next s.ld q l 0 → (∀ a ∈ l, s.heap.Has a) →
      (∀ a ∈ l, ∀ x, P x → run (Store.exec t) (body a x) s = (f x a).map (·, s) ∧
        ∀ y, f x a = .ok y → P y) → l.length < n → P x →
      run (Store.exec t) (eachNode body n (s.ld q) x) s = (l.foldlM f x).map (·, s) := by
  intro n
  induction n with
  | zero => exact fun l q x _ _ _ hn => absurd hn (Nat.not_lt_zero _)
  | succ n ih =>
    intro l q x hseg hhas hbody hn hx
    cases l with
    | nil =>
      have hz : s.ld q = 0 := hseg
      rw [hz]
      rfl
    | cons a l =>
      obtain ⟨ha, hseg⟩ := hseg
      have hhas' := hhas a List.mem_cons_self
      obtain ⟨hrun, hP⟩ := hbody a List.mem_cons_self x hx
      rw [ha]
      unfold eachNode
      rw [if_neg hhas'.ne_zero, List.foldlM_cons]
      refine (run_bind _ (body a x) _ s).trans ?_
      rw [hrun]
      cases hf : f x a with
      | error e => rfl
      | ok y =>
        refine (run_acc (exec_load (missing_next hhas'))).trans ?_
        exact ih l (.next a) y hseg (fun c hc => hhas c (List.mem_cons_of_mem _ hc))
          (fun c hc => hbody c (List.mem_cons_of_mem _ hc)) (by simpa using hn) (hP y hf)

/-- A loop over the buckets that are there. -/
theorem run_eachBucket {body : Nat → σ → Prog mem σ} {f : σ → Nat → Except Stop σ} :
    ∀ k i x, (∀ j, i ≤ j → j < i + k → ∀ x, run (Store.exec t) (body j x) s = (f x j).map (·, s)) →
      run (Store.exec t) (Prog.forFrom body i k x) s = ((List.range' i k).foldlM f x).map (·, s) := by
  intro k
  induction k with
  | zero => exact fun i x _ => rfl
  | succ k ih =>
    intro i x hbody
    rw [List.range'_succ, List.foldlM_cons]
    refine (run_bind _ (body i x) _ s).trans ?_
    rw [hbody i (Nat.le_refl i) (by omega) x]
    cases f x i with
    | error e => rfl
    | ok y => exact ih (i + 1) y fun j h1 h2 => hbody j (by omega) (by omega)

/-! ## sanity_check -/

/-- What `sanity_check` asserts of the rest `l` of chain `i`, behind the node `prev`. -/
structure SaneFrom (s : Store) (i : Nat) (prev : Option Bdd) (l : List Bdd) : Prop where
  home : ∀ a ∈ l, maskIdx (s.heap.get a).hash s.set.sizeExp = i
  sorted : l.Pairwise fun a b => s.key a < s.key b
  behind : ∀ p ∈ prev, ∀ a ∈ l, s.key p < s.key a

/-- Every bucket is there, every node is in its bucket, and the keys of a chain go up. -/
structure Sane (s : Store) : Prop where
  sized : shl64 s.set.sizeExp ≤ s.set.buckets.len
  chain : ∀ i, i < shl64 s.set.sizeExp → s.SaneFrom i none (s.chain i)

theorem saneFrom_cons {i : Nat} {prev : Option Bdd} {a : Bdd} {l : List Bdd} :
    s.SaneFrom i prev (a :: l) ↔ (maskIdx (s.heap.get a).hash s.set.sizeExp = i ∧
      ∀ p ∈ prev, s.key p < s.key a) ∧ s.SaneFrom i (some a) l := by
  constructor
  · intro h
    obtain ⟨hlt, hp⟩ := List.pairwise_cons.mp h.sorted
    refine ⟨⟨h.home a List.mem_cons_self, fun p hp => h.behind p hp a List.mem_cons_self⟩,
      fun b hb => h.home b (List.mem_cons_of_mem _ hb), hp, fun p hpa b hb => ?_⟩
    rw [← Option.some_inj.mp hpa]
    exact hlt b hb
  · rintro ⟨⟨ha, hprev⟩, h⟩
    refine ⟨fun b hb => ?_, List.pairwise_cons.mpr ⟨h.behind a rfl, h.sorted⟩, fun p hp b hb => ?_⟩
    · rcases List.mem_cons.mp hb with rfl | hb
      · exact ha
      · exact h.home b hb
    · rcases List.mem_cons.mp hb with rfl | hb
      · exact hprev p hp
      · exact lt_trans (hprev p hp) (h.behind a rfl b hb)

/-- A table in order passes. -/
theorem Sane.of_sound {w : World} {m : Nat} (h : w.Sound m) : (w.store m).Sane := by
  refine ⟨Nat.le_of_eq (Eq.symm h.sized), fun i hi => ?_⟩
  have hi : i < (w.store m).set.buckets.len := by
    rw [show (w.store m).set.buckets.len = _ from h.sized]
    exact hi
  exact ⟨fun a ha => (h.inv.table.home i hi a ha).2, h.inv.table.sorted i hi, fun p hp => by cases hp⟩

/-- One round of the inner loop, alone. -/
def sanityStep (s : Store) (i : Nat) (prev : Option (UInt64 × Bdd)) (a : Bdd) :
    Except Stop (Option (UInt64 × Bdd)) :=
  if maskIdx (s.heap.get a).hash s.set.sizeExp = i ∧ ∀ p ∈ prev, s.key p.2 < s.key a then
    .ok (some ((s.heap.get a).level, a))
  else .error .panic

theorem run_sanityBehind {k : Key} {prev : Option (UInt64 × Bdd)}
    (hprev : ∀ p ∈ prev, s.heap.Has p.2) : run (Store.exec t) (LockFreeSet.sanityBehind k prev) s =
      if ∀ p ∈ prev, s.key p.2 < k then .ok ((), s) else .error .panic := by
  cases prev with
  | none => exact (if_pos fun p hp => by cases hp).symm
  | some p =>
    refine (run_acc (o := .key p.2) (exec_look (hprev p rfl))).trans ?_
    by_cases hlt : (s.heap.get p.2).key < k
    · rw [if_pos hlt]
      exact (if_pos fun q hq => Option.some_inj.mp hq ▸ hlt).symm
    · rw [if_neg hlt]
      exact (if_neg fun h => hlt (h p rfl)).symm

theorem run_sanityNode {i : Nat} {a : Bdd} {prev : Option (UInt64 × Bdd)} (ha : s.heap.Has a)
    (hprev : ∀ p ∈ prev, s.heap.Has p.2) :
    run (Store.exec t) (LockFreeSet.sanityNode i a prev) s = (s.sanityStep i prev a).map (·, s) := by
  unfold LockFreeSet.sanityNode sanityStep
  refine (run_acc (o := .key a) (exec_look ha)).trans ?_
  refine (run_acc (o := .hash a) (exec_look ha)).trans ?_
  refine (run_acc (o := .sizeExp) rfl).trans ?_
  by_cases hi : maskIdx (s.heap.get a).hash s.set.sizeExp = i
  swap
  · rw [if_pos hi, if_neg fun h => hi h.1]
    rfl
  rw [if_neg (not_not_intro hi)]
  refine (run_bind _ (LockFreeSet.sanityBehind (s.key a) prev) _ s).trans ?_
  have hbehind := run_sanityBehind (t := t) (k := s.key a) hprev
  by_cases hlt : ∀ p ∈ prev, s.key p.2 < s.key a
  · rw [hbehind.trans (if_pos hlt), if_pos ⟨hi, hlt⟩]
    exact run_acc (o := .level a) (exec_look ha)
  · rw [hbehind.trans (if_neg hlt), if_neg fun h => hlt h.2]
    rfl

/-- The inner loop, alone. -/
theorem sanityStep_fold {i : Nat} : ∀ (l : List Bdd) (prev : Option (UInt64 × Bdd)),
    (s.SaneFrom i (prev.map Prod.snd) l ∧ ∃ x, l.foldlM (s.sanityStep i) prev = .ok x) ∨
    (¬ s.SaneFrom i (prev.map Prod.snd) l ∧ l.foldlM (s.sanityStep i) prev = .error .panic) := by
  intro l
  induction l with
  | nil =>
    intro prev
    exact Or.inl ⟨⟨fun a ha => absurd ha List.not_mem_nil, .nil,
      fun p _ a ha => absurd ha List.not_mem_nil⟩, prev, rfl⟩
  | cons a l ih =>
    intro prev
    rw [List.foldlM_cons, saneFrom_cons]
    have hiff : (∀ p ∈ prev.map Prod.snd, s.key p < s.key a) ↔ ∀ p ∈ prev, s.key p.2 < s.key a := by
      cases prev <;> simp
    rw [hiff]
    unfold sanityStep
    by_cases h : maskIdx (s.heap.get a).hash s.set.sizeExp = i ∧ ∀ p ∈ prev, s.key p.2 < s.key a
    · rw [if_pos h]
      exact (ih (some ((s.heap.get a).level, a))).imp (fun h' => ⟨⟨h, h'.1⟩, h'.2⟩)
        fun h' => ⟨fun h'' => h'.1 h''.2, h'.2⟩
    · rw [if_neg h]
      exact Or.inr ⟨fun h' => h h'.1, rfl⟩

/-- Checks one after the other, each of which passes where `P` holds. -/
theorem foldlM_checks {f : Unit → Nat → Except Stop Unit} {P : Nat → Prop} {e : Stop} :
    ∀ l : List Nat, (∀ i ∈ l, P i ∧ f () i = .ok () ∨ ¬ P i ∧ f () i = .error e) →
      ((∀ i ∈ l, P i) ∧ l.foldlM f () = .ok ()) ∨ (¬ (∀ i ∈ l, P i) ∧ l.foldlM f () = .error e) := by
  intro l
  induction l with
  | nil => exact fun _ => Or.inl ⟨fun i hi => absurd hi List.not_mem_nil, rfl⟩
  | cons i l ih =>
    intro h
    rw [List.foldlM_cons, List.forall_mem_cons]
    rcases h i List.mem_cons_self with ⟨hP, hf⟩ | ⟨hP, hf⟩
    · rw [hf]
      exact (ih fun j hj => h j (List.mem_cons_of_mem _ hj)).imp (fun h' => ⟨⟨hP, h'.1⟩, h'.2⟩)
        fun h' => ⟨fun h'' => h'.1 h''.2, h'.2⟩
    · rw [hf]
      exact Or.inr ⟨fun h' => hP h'.1, rfl⟩

/-- **`sanity_check` decides.**  Over a table whose chains end, `sanity_check` returns if every
bucket is there, every node is in the bucket of its hash and the keys go up along every chain; else
it panics. -/
theorem run_sanityCheck (hc : Chains s.set.buckets s.heap s.chain) (t : Nat) {n : Nat}
    (hn : s.heap.brk < n) :
    (s.Sane ∧ run (Store.exec t) (LockFreeSet.sanityCheck n) s = .ok ((), s)) ∨
    (¬ s.Sane ∧ run (Store.exec t) (LockFreeSet.sanityCheck n) s = .error .panic) := by
  -- one round of the outer loop
  let f (_ : Unit) (i : Nat) : Except Stop Unit :=
    if i < s.set.buckets.len then ((s.chain i).foldlM (s.sanityStep i) none).map fun _ => ()
    else .error .panic
  have hbody : ∀ i x, run (Store.exec t) (do
      let head : Bdd ← acc (.load (.head i))
      let _ ← eachNode (LockFreeSet.sanityNode i) n head none
      return ()) s = (f x i).map (·, s) := by
    intro i x
    by_cases hi : i < s.set.buckets.len
    · have hf : f x i = ((s.chain i).foldlM (s.sanityStep i) none).map fun _ => () := if_pos hi
      have hseg := hc.seg i hi
      rw [← ld_eq] at hseg
      have hwalk : run (Store.exec t)
          (eachNode (LockFreeSet.sanityNode i) n (s.ld (.head i)) none) s =
            ((s.chain i).foldlM (s.sanityStep i) none).map (·, s) := by
        refine run_eachNode (fun p : Option (UInt64 × Bdd) => ∀ q ∈ p, s.heap.Has q.2) n
          (s.chain i) (.head i) none hseg (hc.has i hi) (fun a ha x hx =>
            ⟨run_sanityNode (hc.has i hi a ha) hx, fun y hy => ?_⟩)
          (Nat.lt_of_le_of_lt (hc.length_le hi) hn) fun q hq => by cases hq
        unfold sanityStep at hy
        split at hy
        · cases hy
          intro q hq
          rw [← Option.some_inj.mp hq]
          exact hc.has i hi a ha
        · cases hy
      rw [hf]
      refine (run_acc (o := .load (.head i)) (exec_load (missing_head hi))).trans ?_
      refine (run_bind _ _ _ s).trans ?_
      rw [hwalk]
      cases (s.chain i).foldlM (s.sanityStep i) none <;> rfl
    · have hf : f x i = .error .panic := if_neg hi
      rw [hf]
      exact run_step_error (exec_missing (if_neg hi))
  have hrun : run (Store.exec t) (LockFreeSet.sanityCheck n) s =
      ((List.range' 0 (shl64 s.set.sizeExp)).foldlM f ()).map (·, s) :=
    (run_acc (o := .sizeExp) rfl).trans
      (run_eachBucket (f := f) _ 0 () fun j _ _ x => hbody j x)
  have hchecks := foldlM_checks (e := .panic)
    (P := fun i => i < s.set.buckets.len ∧ s.SaneFrom i none (s.chain i))
    (List.range' 0 (shl64 s.set.sizeExp)) (f := f) fun i _ => ?_
  · have hsane : (∀ i ∈ List.range' 0 (shl64 s.set.sizeExp),
        i < s.set.buckets.len ∧ s.SaneFrom i none (s.chain i)) ↔ s.Sane := by
      simp only [List.mem_range'_1, Nat.zero_add, Nat.zero_le, true_and]
      constructor
      · exact fun h => ⟨Nat.le_of_not_lt fun hlt => Nat.lt_irrefl _ (h _ hlt).1, fun i hi => (h i hi).2⟩
      · exact fun h i hi => ⟨Nat.lt_of_lt_of_le hi h.sized, h.chain i hi⟩
    rw [hsane] at hchecks
    rw [hrun]
    exact hchecks.imp (fun h => ⟨h.1, by rw [h.2]; rfl⟩) fun h => ⟨h.1, by rw [h.2]; rfl⟩
  · by_cases hi : i < s.set.buckets.len
    · have hf : f () i = ((s.chain i).foldlM (s.sanityStep i) none).map fun _ => () := if_pos hi
      rw [hf]
      rcases sanityStep_fold (s := s) (i := i) (s.chain i) none with ⟨h, x, hx⟩ | ⟨h, hx⟩
      · exact Or.inl ⟨⟨hi, h⟩, by rw [hx]; rfl⟩
      · exact Or.inr ⟨fun h' => h h'.2, by rw [hx]; rfl⟩
    · exact Or.inr ⟨fun h => hi h.1, if_neg hi⟩

theorem run_sanityCheck_single : ∃ n, run (Store.exec 0) (LockFreeSet.sanityCheck n)
    ((Manager.single 8 8 2).store 0) = .ok ((), (Manager.single 8 8 2).store 0) := by
  obtain ⟨hr, -, hm⟩ := Manager.single_ready 8 8 2 (by decide) (by decide)
  generalize Manager.single 8 8 2 = w at hr hm
  have hs := hr.sound hm
  refine ⟨(w.store 0).heap.brk + 1, ?_⟩
  rcases run_sanityCheck hs.inv.table.chains 0 (Nat.lt_succ_self _) with ⟨-, hrun⟩ | ⟨hno, -⟩
  · exact hrun
  · exact absurd (.of_sound hs) hno

/-! ## table_stat_report -/

/-- The lengths of the chains. -/
def lengths (s : Store) : List Nat :=
  (List.range (shl64 s.set.sizeExp)).map fun i => (s.chain i).length

/-- **`table_stat_report`** goes over the lengths of the chains. -/
theorem run_tableStatReport (hc : Chains s.set.buckets s.heap s.chain)
    (hlen : shl64 s.set.sizeExp ≤ s.set.buckets.len) (t : Nat) {n : Nat} (hn : s.heap.brk < n) :
    run (Store.exec t) (LockFreeSet.tableStatReport n) s =
      .ok (.of s.lengths, s) := by
  have hcount : ∀ (l : List Bdd) k, (l.foldlM (fun k _ => .ok (k + 1)) k : Except Stop Nat) =
      .ok (k + l.length) := by
    intro l
    induction l with
    | nil => exact fun k => rfl
    | cons a l ih =>
      intro k
      refine (ih (k + 1)).trans ?_
      rw [List.length_cons]
      congr 1
      omega
  have hbody : ∀ i, i < s.set.buckets.len → ∀ r : LockFreeSet.TableStatReport,
      run (Store.exec t) (do
        let curr : Bdd ← acc (.load (.head i))
        let len ← eachNode (fun _ len => return len + 1) n curr 0
        return r.add len) s = .ok (r.add (s.chain i).length, s) := by
    intro i hi r
    have hseg := hc.seg i hi
    rw [← ld_eq] at hseg
    have hwalk : run (Store.exec t) (eachNode (fun _ len => return len + 1) n (s.ld (.head i)) 0) s =
        ((s.chain i).foldlM (fun k _ => Except.ok (k + 1)) 0).map (·, s) :=
      run_eachNode (fun _ : Nat => True) n (s.chain i) (.head i) 0 hseg (hc.has i hi)
        (fun _ _ _ _ => ⟨rfl, fun _ _ => trivial⟩) (Nat.lt_of_le_of_lt (hc.length_le hi) hn) trivial
    refine (run_acc (o := .load (.head i)) (exec_load (missing_head hi))).trans ?_
    refine (run_bind _ _ _ s).trans ?_
    rw [hwalk, hcount, Nat.zero_add]
    rfl
  have hfold : ∀ (l : List Nat) (r : LockFreeSet.TableStatReport),
      (l.foldlM (fun r i => .ok (r.add (s.chain i).length)) r : Except Stop _) =
        .ok ((l.map fun i => (s.chain i).length).foldl LockFreeSet.TableStatReport.add r) := by
    intro l
    induction l with
    | nil => exact fun r => rfl
    | cons i l ih => exact fun r => ih _
  have hrun := run_eachBucket (t := t) (f := fun r i => .ok (r.add (s.chain i).length))
    (shl64 s.set.sizeExp) 0 (.start (shl64 s.set.sizeExp)) fun j _ hj r => hbody j (by omega) r
  rw [hfold] at hrun
  unfold LockFreeSet.TableStatReport.of lengths
  rw [List.length_map, List.length_range, List.range_eq_range']
  refine (run_acc (o := .sizeExp) rfl).trans ?_
  refine (run_bind _ (Prog.forFrom _ 0 _ _) _ s).trans ?_
  rw [hrun]
  rfl

end Store

namespace LockFreeSet

/-- Where a chain of `len` nodes is counted. -/
def TableStatReport.bucketOf (len : Nat) : Fin 9 := if len = 0 then 0 else slot len

/-- The slots are those of the powers of two. -/
theorem slot_val {len : Nat} (h : len ≠ 0) : (slot len).val = min 8 (len.log2 + 1) := by
  have hlog : ∀ k, 2 ^ k ≤ len → len < 2 ^ (k + 1) → len.log2 = k := fun k h1 h2 =>
    (Nat.log2_eq_iff h).mpr ⟨h1, h2⟩
  unfold slot
  split_ifs
  · rw [hlog 0 (by omega) (by omega)]
    rfl
  · rw [hlog 1 (by omega) (by omega)]
    rfl
  · rw [hlog 2 (by omega) (by omega)]
    rfl
  · rw [hlog 3 (by omega) (by omega)]
    rfl
  · rw [hlog 4 (by omega) (by omega)]
    rfl
  · rw [hlog 5 (by omega) (by omega)]
    rfl
  · rw [hlog 6 (by omega) (by omega)]
    rfl
  · have h7 : 7 ≤ len.log2 := (Nat.le_log2 h).mpr (by omega)
    rw [Nat.min_eq_left (by omega)]
    rfl

namespace TableStatReport

variable {r : TableStatReport} {l : List Nat} {len : Nat}

/-- `r` is what the loop has counted over chains of the lengths `l`. -/
structure Counts (l : List Nat) (r : TableStatReport) : Prop where
  nodes : r.nodeCount = l.sum
  empty : r.emptyBuckets = l.count 0
  nonEmpty : r.nonEmptyBuckets + l.count 0 = l.length
  minLe : ∀ k ∈ l, k ≠ 0 → r.minChainLen ≤ k
  minMem : r.minChainLen = 2 ^ 64 - 1 ∨ r.minChainLen ∈ l ∧ r.minChainLen ≠ 0
  maxGe : ∀ k ∈ l, k ≤ r.maxChainLen
  maxMem : r.maxChainLen = 0 ∨ r.maxChainLen ∈ l
  histogram : ∀ i, r.histogram i = l.countP fun k => bucketOf k = i

theorem counts_start (tableSize : Nat) : Counts [] (start tableSize) where
  nodes := rfl
  empty := rfl
  nonEmpty := rfl
  minLe _ hk := absurd hk List.not_mem_nil
  minMem := Or.inl rfl
  maxGe _ hk := absurd hk List.not_mem_nil
  maxMem := Or.inl rfl
  histogram _ := rfl

theorem bump_eq (len : Nat) (h : ∀ i, r.histogram i = l.countP fun k => bucketOf k = i) (i : Fin 9) :
    r.bump (bucketOf len) i = (len :: l).countP fun k => bucketOf k = i := by
  unfold bump
  rw [List.countP_cons]
  by_cases hi : i = bucketOf len
  · subst hi
    rw [Function.update_self, h]
    simp
  · rw [Function.update_of_ne hi, h]
    simp [Ne.symm hi]

/-- One more chain. -/
theorem Counts.add (h : Counts l r) (len : Nat) : Counts (len :: l) (r.add len) := by
  by_cases h0 : len = 0
  · subst h0
    have hr : r.add 0 = { r with
        nodeCount := r.nodeCount + 0, emptyBuckets := r.emptyBuckets + 1, histogram := r.bump 0 } := rfl
    rw [hr]
    refine ⟨?_, ?_, ?_, fun k hk hk0 => ?_, h.minMem.imp_right fun hm => ?_, fun k hk => ?_,
      h.maxMem.imp_right (List.mem_cons_of_mem 0), fun i => bump_eq 0 h.histogram i⟩
    · simp [h.nodes]
    · simp [h.empty]
    · have := h.nonEmpty
      simp only [List.count_cons_self, List.length_cons]
      omega
    · exact h.minLe k ((List.mem_cons.mp hk).resolve_left hk0) hk0
    · exact ⟨List.mem_cons_of_mem 0 hm.1, hm.2⟩
    · rcases List.mem_cons.mp hk with rfl | hk
      · exact Nat.zero_le _
      · exact h.maxGe k hk
  · have hr : r.add len = { r with
        nodeCount := r.nodeCount + len
        nonEmptyBuckets := r.nonEmptyBuckets + 1
        minChainLen := if len < r.minChainLen then len else r.minChainLen
        maxChainLen := if len > r.maxChainLen then len else r.maxChainLen
        histogram := r.bump (slot len) } := if_neg h0
    have hslot : slot len = bucketOf len := (if_neg h0).symm
    rw [hr]
    refine ⟨?_, ?_, ?_, fun k hk hk0 => ?_, ?_, fun k hk => ?_, ?_, ?_⟩
    · simp only [h.nodes, List.sum_cons]
      omega
    · rw [List.count_cons_of_ne h0]
      exact h.empty
    · have := h.nonEmpty
      rw [List.count_cons_of_ne h0, List.length_cons]
      show r.nonEmptyBuckets + 1 + _ = _
      omega
    · show (if len < r.minChainLen then len else r.minChainLen) ≤ k
      rcases List.mem_cons.mp hk with rfl | hk
      · split <;> omega
      · have := h.minLe k hk hk0
        split <;> omega
    · show (if len < r.minChainLen then len else r.minChainLen) = _ ∨
        (if len < r.minChainLen then len else r.minChainLen) ∈ _ ∧ _
      split
      · exact Or.inr ⟨List.mem_cons_self, h0⟩
      · exact h.minMem.imp_right fun hm => ⟨List.mem_cons_of_mem len hm.1, hm.2⟩
    · show k ≤ if len > r.maxChainLen then len else r.maxChainLen
      rcases List.mem_cons.mp hk with rfl | hk
      · split <;> omega
      · have := h.maxGe k hk
        split <;> omega
    · show (if len > r.maxChainLen then len else r.maxChainLen) = 0 ∨
        (if len > r.maxChainLen then len else r.maxChainLen) ∈ _
      split
      · exact Or.inr List.mem_cons_self
      · exact h.maxMem.imp_right (List.mem_cons_of_mem len)
    · intro i
      rw [hslot]
      exact bump_eq len h.histogram i

theorem Counts.foldl : ∀ (k : List Nat) {l : List Nat} {r : TableStatReport}, Counts l r →
    Counts (k.reverse ++ l) (k.foldl TableStatReport.add r) := by
  intro k
  induction k with
  | nil => exact fun h => h
  | cons len k ih =>
    intro l r h
    rw [List.reverse_cons, List.append_assoc]
    exact ih (h.add len)

/-- What a report says about chains of the lengths `l`. -/
structure Right (r : TableStatReport) (l : List Nat) : Prop where
  tableSize : r.tableSize = l.length
  nodes : r.nodeCount = l.sum
  empty : r.emptyBuckets = l.count 0
  buckets : r.emptyBuckets + r.nonEmptyBuckets = r.tableSize
  /-- the shortest chain that is not empty, `0` where there is none -/
  shortest : (∀ k ∈ l, k < 2 ^ 64) → (∀ k ∈ l, k = 0) ∧ r.minChainLen = 0 ∨
    r.minChainLen ∈ l ∧ r.minChainLen ≠ 0 ∧ ∀ k ∈ l, k ≠ 0 → r.minChainLen ≤ k
  longest : (∀ k ∈ l, k ≤ r.maxChainLen) ∧ (r.maxChainLen = 0 ∨ r.maxChainLen ∈ l)
  histogram : ∀ i : Fin 9, r.histogram i =
    l.countP fun k => (if k = 0 then 0 else min 8 (k.log2 + 1)) = i.val

theorem foldl_tableSize : ∀ (k : List Nat) (r : TableStatReport),
    (k.foldl TableStatReport.add r).tableSize = r.tableSize := by
  intro k
  induction k with
  | nil => exact fun r => rfl
  | cons len k ih =>
    intro r
    refine (ih (r.add len)).trans ?_
    unfold TableStatReport.add
    split <;> rfl

theorem bucketOf_val : (bucketOf len).val = if len = 0 then 0 else min 8 (len.log2 + 1) := by
  unfold bucketOf
  split
  · rfl
  · next h => exact slot_val h

/-- **The report is right.** -/
theorem of_right (l : List Nat) : (of l).Right l := by
  have hc : Counts (l.reverse ++ []) (l.foldl TableStatReport.add (start l.length)) :=
    (counts_start l.length).foldl l
  have hsize := foldl_tableSize l (start l.length)
  unfold of
  generalize l.foldl TableStatReport.add (start l.length) = r at hc hsize
  have hsize : r.tableSize = l.length := hsize
  rw [List.append_nil] at hc
  have hempty := hc.empty
  have hnon := hc.nonEmpty
  rw [List.count_reverse] at hempty hnon
  rw [List.length_reverse] at hnon
  have hmem : ∀ k, k ∈ l.reverse ↔ k ∈ l := fun k => List.mem_reverse
  have hfin : r.finish = { r with minChainLen :=
      if r.nonEmptyBuckets = 0 then 0 else r.minChainLen } := by
    unfold finish
    split <;> rfl
  rw [hfin]
  refine ⟨hsize, ?_, hempty, ?_, fun hl => ?_, ⟨fun k hk => hc.maxGe k ((hmem k).mpr hk),
    hc.maxMem.imp_right (hmem _).mp⟩, fun i => ?_⟩
  · rw [hc.nodes, List.sum_reverse]
  · show r.emptyBuckets + r.nonEmptyBuckets = r.tableSize
    omega
  · by_cases h0 : r.nonEmptyBuckets = 0
    · refine Or.inl ⟨fun k hk => ?_, if_pos h0⟩
      exact List.count_eq_length.mp (by omega) k hk |>.symm
    · simp only [if_neg h0]
      -- a chain that is not empty has set the minimum
      obtain ⟨k, hk, hk0⟩ : ∃ k ∈ l, k ≠ 0 := by
        by_contra hno
        push Not at hno
        have := List.count_eq_length.mpr fun k hk => (hno k hk).symm
        omega
      refine Or.inr ?_
      have hle := fun k hk => hc.minLe k ((hmem k).mpr hk)
      rcases hc.minMem with hm | hm
      · have h1 := hle k hk hk0
        have h2 := hl k hk
        have hkm : r.minChainLen = k := by omega
        exact ⟨hkm ▸ hk, hkm ▸ hk0, hle⟩
      · exact ⟨(hmem _).mp hm.1, hm.2, hle⟩
  · show r.histogram i = _
    rw [hc.histogram i, List.countP_reverse]
    refine List.countP_congr fun k _ => ?_
    simp only [decide_eq_true_eq, ← Fin.val_inj, bucketOf_val]

end TableStatReport

end LockFreeSet

end Tobdd
