import Tobdd.Between
import Tobdd.Inspect
import Tobdd.Lib.Watch
import Tobdd.SetThreads
import Tobdd.WriteErrors

/-!
# Looking at a table that is in use

    Reach.sanity_check: in every state a run reaches, `sanity_check` passes
    Reach.table_stat_report: there the report counts every node, and agrees with `num_entry`
    sanityCheck_beside_inserts: next to any threads that insert, in any order of their steps,
                    `sanity_check` never panics and never touches a node that is not there
-/

namespace Tobdd

open Resume Linked

namespace Store

variable {s s' : Store} {t N i : Nat} {curr : Bdd} {prev : Option (UInt64 × Bdd)}

/-! ## It only reads -/

/-- The accesses of `sanity_check`. -/
def Reads : Access → Prop
  | .load _ | .key _ | .hash _ | .level _ | .sizeExp | .panic | .spinLoop => True
  | _ => False

theorem exec_reads {o : Access} (ho : Reads o) {r : mem.Res o} (h : Store.exec t o s = .ok (r, s')) :
    s' = s := by
  cases o with
  | load p => exact (load_ok h).2.2
  | key a => exact (look_ok h).2
  | hash a => exact (look_ok h).2
  | level a => exact (look_ok h).2
  | sizeExp => exact (Prod.mk.inj (Except.ok.inj h)).2.symm
  | panic => cases h
  | spinLoop => cases h
  | _ => exact ho.elim

theorem only_eachNode {σ : Type} {body : Bdd → σ → Prog mem σ} (hbody : ∀ a x, (body a x).Only Reads)
    (n : Nat) : ∀ curr x, (eachNode body n curr x).Only Reads := by
  induction n with
  | zero => exact fun _ _ => ⟨trivial, fun r => r.elim⟩
  | succ n ih =>
    intro curr x
    exact Prog.Only.ite _ trivial (Prog.Only.bind (hbody curr x) fun x => ⟨trivial, fun r => ih r x⟩)

theorem only_panic {α : Type} : (panic : Prog mem α).Only Reads := ⟨trivial, fun r => r.elim⟩

theorem only_sanityNode (i : Nat) (curr : Bdd) (prev : Option (UInt64 × Bdd)) :
    (LockFreeSet.sanityNode i curr prev).Only Reads := by
  have hbehind : ∀ k, (LockFreeSet.sanityBehind k prev).Only Reads := by
    intro k
    cases prev with
    | none => trivial
    | some p => exact ⟨trivial, fun (key : Key) => Prog.Only.ite (key < k) trivial only_panic⟩
  refine ⟨trivial, fun k => ⟨trivial, fun h => ⟨trivial, fun e => ?_⟩⟩⟩
  exact Prog.Only.ite _ only_panic (Prog.Only.bind (hbehind k) fun _ => ⟨trivial, fun _ => trivial⟩)

theorem only_sanityCheck (n : Nat) : (LockFreeSet.sanityCheck n).Only Reads :=
  ⟨trivial, fun _ => Prog.Only.forRange fun i _ => ⟨trivial, fun head =>
    Prog.Only.bind (p := eachNode (LockFreeSet.sanityNode i) n head none)
      (only_eachNode (only_sanityNode i) n head none) fun _ => trivial⟩⟩

/-! ## Next to threads that insert -/

/-- Thread `t` looks at the table, while others insert. -/
def looking (t : Nat) : Logic mem Store where
  exec := Store.exec t
  rely s s' := s'.Inv ∧ s.Grows s'
  guar s s' := s' = s
  safe _ _ := True
  stops e _ := e = .spin
  fits _ := True

/-- A read; `I` is what is known before it and not disturbed by the others. -/
theorem wp_peek {α : Type} {o : Access} {f : mem.Res o → Prog mem α} {Q : α → Store → Prop}
    (I : Store → Prop) (hI : ∀ s s', I s → s'.Inv → s.Grows s' → I s') (hs : I s)
    (h : ∀ s', I s' → ∃ r, Store.exec t o s' = .ok (r, s') ∧ wp (looking t) (f r) Q s') :
    wp (looking t) (acc o >>= f) Q s := by
  rintro s' ⟨hinv, hg⟩
  obtain ⟨r, he, hq⟩ := h s' (hI s s' hs hinv hg)
  exact Logic.Does.of_ok trivial he fun _ => ⟨rfl, hq⟩

/-- Behind a node there is none, or one with a greater key. -/
theorem Table.next_above (h : s.Table) (hi : i < s.set.buckets.len) {a : Bdd} (ha : a ∈ s.chain i) :
    s.ld (.next a) = 0 ∨ s.ld (.next a) ∈ s.chain i ∧ s.key a < s.key (s.ld (.next a)) := by
  obtain ⟨l₁, l₂, hl⟩ := List.append_of_mem ha
  have hseg := h.chains.seg i hi
  have hs := h.sorted i hi
  rw [hl, List.append_cons] at hseg
  rw [hl] at hs ⊢
  have hld := hseg.load
  rw [endPlace_concat] at hld
  rw [ld_eq, hld]
  cases l₂ with
  | nil => exact Or.inl rfl
  | cons b l₂ =>
    refine Or.inr ⟨List.mem_append_right _ (List.mem_cons_of_mem _ List.mem_cons_self), ?_⟩
    exact (List.pairwise_cons.mp (List.pairwise_append.mp hs).2.1).1 b List.mem_cons_self

/-- `sanity_check` has come to `curr` in chain `i` of `N`, from the node in `prev`. -/
structure Checking (N i : Nat) (curr : Bdd) (prev : Option (UInt64 × Bdd)) (s : Store) : Prop where
  inv : s.Inv
  len : s.set.buckets.len = N
  bucket : i < s.set.buckets.len
  here : curr = 0 ∨ curr ∈ s.chain i
  before : ∀ p ∈ prev, p.2 ∈ s.chain i ∧ (curr ≠ 0 → s.key p.2 < s.key curr)

theorem Checking.grows (h : Checking N i curr prev s) (hinv : s'.Inv) (hg : s.Grows s') :
    Checking N i curr prev s' where
  inv := hinv
  len := hg.len.trans h.len
  bucket := hg.len ▸ h.bucket
  here := h.here.imp_right fun hc => (hg.chain i h.bucket).subset hc
  before p hp := by
    obtain ⟨h1, h2⟩ := h.before p hp
    refine ⟨(hg.chain i h.bucket).subset h1, fun h0 => ?_⟩
    rw [hg.key ⟨i, h.bucket, h1⟩, hg.key ⟨i, h.bucket, h.here.resolve_left h0⟩]
    exact h2 h0

theorem wp_sanityNode (h : Checking N i curr prev s) (h0 : curr ≠ 0) :
    wp (looking t) (LockFreeSet.sanityNode i curr prev)
      (fun next s' => Checking N i curr prev s' ∧ ∃ l, next = some (l, curr)) s := by
  have hstable : ∀ s s', Checking N i curr prev s → s'.Inv → s.Grows s' → Checking N i curr prev s' :=
    fun _ _ h hinv hg => h.grows hinv hg
  have hmem : ∀ {s}, Checking N i curr prev s → curr ∈ s.chain i := fun h => h.here.resolve_left h0
  have hhas : ∀ {s}, Checking N i curr prev s → s.heap.Has curr := fun h =>
    h.inv.table.chains.has i h.bucket curr (hmem h)
  unfold LockFreeSet.sanityNode
  refine wp_peek (o := .key curr) (Checking N i curr prev) hstable h fun s₁ h1 => ?_
  refine ⟨_, exec_look (hhas h1), ?_⟩
  -- the key and the hash of a node in the table stay what they are
  let I (s : Store) : Prop := Checking N i curr prev s ∧ s.key curr = s₁.key curr ∧
    s.set.sizeExp = s₁.set.sizeExp ∧ (s.heap.get curr).hash = (s₁.heap.get curr).hash
  have hI : ∀ s s', I s → s'.Inv → s.Grows s' → I s' := by
    rintro s s' ⟨hs, hk, he, hh⟩ hinv hg
    have hlive : s.Live curr := ⟨i, hs.bucket, hmem hs⟩
    exact ⟨hs.grows hinv hg, (hg.key hlive).trans hk, hg.sizeExp.trans he,
      (hg.node curr hlive).hash.trans hh⟩
  refine wp_peek (o := .hash curr) I hI ⟨h1, rfl, rfl, rfl⟩ fun s₂ h2 => ?_
  refine ⟨_, exec_look (hhas h2.1), ?_⟩
  rw [h2.2.2.2]
  refine wp_peek (o := .sizeExp) I hI h2 fun s₃ h3 => ?_
  refine ⟨_, rfl, ?_⟩
  rw [h3.2.2.1]
  rw [if_neg (not_not_intro (h1.inv.table.home i h1.bucket curr (hmem h1)).2)]
  refine wp_seq (P := fun _ s => I s) ?_ fun _ s₄ h4 => ?_
  · cases prev with
    | none => exact h3
    | some p =>
      refine wp_peek (o := .key p.2) I hI h3 fun s₄ h4 => ?_
      obtain ⟨hp, hlt⟩ := h4.1.before p rfl
      refine ⟨_, exec_look (h4.1.inv.table.chains.has i h4.1.bucket p.2 hp), ?_⟩
      have hlt : s₄.key p.2 < s₁.key curr := h4.2.1 ▸ hlt h0
      rw [if_pos (show (s₄.heap.get p.2).key < (s₁.heap.get curr).key from hlt)]
      exact h4
  · refine wp_peek (o := .level curr) I hI h4 fun s₅ h5 => ?_
    exact ⟨_, exec_look (hhas h5.1), h5.1, _, rfl⟩

theorem wp_sanityChain : ∀ n curr prev s, Checking N i curr prev s →
    wp (looking t) (eachNode (LockFreeSet.sanityNode i) n curr prev)
      (fun _ s' => s'.Inv ∧ s'.set.buckets.len = N) s := by
  intro n
  induction n with
  | zero => exact fun curr prev s _ s' _ => Logic.Does.of_error trivial rfl rfl
  | succ n ih =>
    intro curr prev s h
    unfold eachNode
    refine wp_ite _ (fun _ => ⟨h.inv, h.len⟩) fun h0 => ?_
    refine wp_seq (wp_sanityNode h h0) ?_
    rintro next s₁ ⟨h1, l, rfl⟩
    refine wp_peek (o := .load (.next curr)) (Checking N i curr prev)
      (fun _ _ h hinv hg => h.grows hinv hg) h1 fun s₂ h2 => ?_
    have hc : curr ∈ s₂.chain i := h2.here.resolve_left h0
    have hnext := h2.inv.table.next_above h2.bucket hc
    refine ⟨_, exec_load (missing_next (h2.inv.table.chains.has i h2.bucket curr hc)), ?_⟩
    refine ih _ _ s₂ ⟨h2.inv, h2.len, h2.bucket, hnext.imp_right And.left, fun p hp => ?_⟩
    rw [← Option.some_inj.mp hp]
    exact ⟨hc, fun hn0 => (hnext.resolve_left hn0).2⟩

/-- **`sanity_check` next to inserts.** -/
theorem wp_sanityCheck (h : s.Inv) (hlen : shl64 s.set.sizeExp ≤ s.set.buckets.len) (n : Nat) :
    wp (looking t) (LockFreeSet.sanityCheck n) (fun _ _ => True) s := by
  unfold LockFreeSet.sanityCheck
  refine wp_peek (o := .sizeExp)
    (fun s' => s'.Inv ∧ s'.set.buckets.len = s.set.buckets.len ∧ s'.set.sizeExp = s.set.sizeExp)
    (fun a b ha hinv hg => ⟨hinv, hg.len.trans ha.2.1, hg.sizeExp.trans ha.2.2⟩) ⟨h, rfl, rfl⟩
    fun s₁ h1 => ⟨_, rfl, ?_⟩
  rw [h1.2.2]
  refine wp_mono (fun _ _ _ => trivial) (wp_forRange
    (I := fun _ _ s' => s'.Inv ∧ s'.set.buckets.len = s.set.buckets.len) ⟨h1.1, h1.2.1⟩ ?_)
  rintro i _ s₂ hi ⟨h2, hlen2⟩
  refine wp_peek (o := .load (.head i))
    (fun s' => s'.Inv ∧ s'.set.buckets.len = s.set.buckets.len)
    (fun a b ha hinv hg => ⟨hinv, hg.len.trans ha.2⟩) ⟨h2, hlen2⟩ fun s₃ h3 => ?_
  have hi3 : i < s₃.set.buckets.len := by
    rw [h3.2]
    exact Nat.lt_of_lt_of_le hi hlen
  refine ⟨_, exec_load (missing_head hi3), ?_⟩
  refine wp_seq (wp_sanityChain (N := s.set.buckets.len) n _ none s₃
    ⟨h3.1, h3.2, hi3, ?_, fun p hp => by cases hp⟩) fun _ _ h4 => h4
  exact (Prev.head (k := toLex (0, toLex (0, 0)))).load h3.1.table hi3

end Store

namespace World

variable {w : World} {m : Nat}

theorem put_put (s s' : Store) : (w.put m s).put m s' = w.put m s' := by
  unfold put setMgr
  simp only [Function.update_self, Function.update_idem]

end World

namespace Manager

open World

variable {ε σ α : Type} {t m n : Nat} {w : World}

/-- Code of the table, alone. -/
theorem run_table (p : Prog mem α) (w : World) : run (exec m t) (p.lift table) w =
    (run (Store.exec t) p (w.store m)).map fun y => (y.1, w.put m y.2) := by
  refine run_lift (v := fun w : World => w.store m) (u := fun w s => w.put m s)
    (fun w s => put_store w m s) (fun w s s' => put_put s s') (fun w => put_self w m) ?_ p w
  intro o w
  show (exec m t (.acc o) w).map _ = _
  simp only [exec]
  cases (w.store m).exec t o <;> rfl

/-- Code of the manager next to a writer, alone. -/
theorem run_besideWriter (W : IoWrite σ ε) (p : Prog ops α) (w : World) (x : σ) :
    run (execWrite W m t) (p.lift (besideWriter ε)) (w, x) =
      (run (exec m t) p w).map fun y => (y.1, y.2, x) := by
  refine run_lift (v := fun z : World × σ => z.1) (u := fun z w => (w, z.2)) (fun _ _ => rfl)
    (fun _ _ _ => rfl) (fun _ => rfl) ?_ p (w, x)
  intro o z
  show (execWrite W m t (.mgr o) z).map _ = _
  simp only [execWrite]
  cases exec m t o z.1 <;> rfl

/-! ## Alone -/

/-- **`sanity_check` passes** in every state a run reaches. -/
theorem Reach.sanity_check {u : Nat} (h : Reach t w) (hm : w.made m = true) (hn : w.heap.brk < n) :
    run (exec m u) ((LockFreeSet.sanityCheck n).lift table) w = .ok ((), w) := by
  have hs := h.sound hm
  rw [run_table]
  rcases Store.run_sanityCheck hs.inv.table.chains u hn with ⟨-, hrun⟩ | ⟨hno, -⟩
  · rw [hrun]
    exact congrArg (fun w => Except.ok ((), w)) (put_self w m)
  · exact absurd (.of_sound hs) hno

/-- **The report** in a state a run reaches: it is about all buckets of the array, and counts the
nodes that `get_node_num` counts. -/
theorem Reach.table_stat_report {u : Nat} (h : Reach t w) (hm : w.made m = true)
    (hn : w.heap.brk < n) : ∃ r, run (exec m u) ((LockFreeSet.tableStatReport n).lift table) w =
      .ok (r, w) ∧ r.nodeCount = (w.mgr m).set.numEntry ∧
      r.tableSize = (w.mgr m).set.buckets.len ∧ r.Right (w.store m).lengths := by
  have hs := h.sound hm
  have hright := LockFreeSet.TableStatReport.of_right (w.store m).lengths
  refine ⟨.of (w.store m).lengths, ?_, ?_, ?_, hright⟩
  · rw [run_table, Store.run_tableStatReport hs.inv.table.chains (Nat.le_of_eq (Eq.symm hs.sized)) u hn]
    exact congrArg (fun w => Except.ok (_, w)) (put_self w m)
  · have hcount : (w.mgr m).set.numEntry = (w.store m).nodes.length := hs.represented.count.1
    rw [hright.nodes, hcount]
    unfold Store.nodes Store.lengths
    rw [List.length_flatMap, ← show (w.store m).set.buckets.len = _ from hs.sized]
  · rw [hright.tableSize]
    unfold Store.lengths
    rw [List.length_map, List.length_range]
    exact hs.sized.symm

theorem Reach.table_stat_report_single : ∃ n r,
    run (exec 0 0) ((LockFreeSet.tableStatReport n).lift table) (single 8 8 2) =
      .ok (r, single 8 8 2) ∧ r.nodeCount = ((single 8 8 2).mgr 0).set.numEntry := by
  obtain ⟨hr, -, hm⟩ := single_ready 8 8 2 (by decide) (by decide)
  obtain ⟨r, hrun, hcount, -⟩ := Reach.table_stat_report (u := 0) hr hm (Nat.lt_succ_self _)
  exact ⟨_, r, hrun, hcount⟩

/-! ## Debug -/

/-- One `write_fmt`, a `write_str` for each piece. -/
def writePieces : List (List Char) → Prog (writeOps ε) (Except ε Unit)
  | [] => return .ok ()
  | s :: l => do
    match ← writeFmt s with
    | .error e => return .error e
    | .ok _ => writePieces l

/-- `format_args!` with one number, which is read first. -/
def debugLine (label : List Char) (value : Prog ops Nat) : Prog (writeOps ε) (Except ε Unit) := do
  let v : Nat ← value.lift (besideWriter ε)
  writePieces [label, Nat.toDigits 10 v, ['\n']]

/-- `p?; q`. -/
def orElse (p q : Prog (writeOps ε) (Except ε Unit)) : Prog (writeOps ε) (Except ε Unit) := do
  match ← p with
  | .error e => return .error e
  | .ok _ => q

/-- `<Manager as Debug>::fmt`, without the features that count. -/
def debugFmt (g : Consts) (n : Nat) : Prog (writeOps ε) (Except ε Unit) :=
  orElse (writePieces ["TOBDD Debug Information\n".toList]) <|
  orElse (debugLine "node_num: ".toList getNodeNum) <|
  orElse (debugLine "bucket_size: ".toList (LockFreeSet.bucketSize.lift table)) <|
  orElse (debugLine "var_num: ".toList (return g.numVars)) do
    let _ : Unit ← ((LockFreeSet.sanityCheck n).lift table).lift (besideWriter ε)
    return .ok ()

/-- The lines of `fmt`, piece by piece. -/
def debugPieces (nodeNum bucketSize numVars : Nat) : List (List Char) :=
  ["TOBDD Debug Information\n".toList,
    "node_num: ".toList, Nat.toDigits 10 nodeNum, ['\n'],
    "bucket_size: ".toList, Nat.toDigits 10 bucketSize, ['\n'],
    "var_num: ".toList, Nat.toDigits 10 numVars, ['\n']]

/-- The bytes of the pieces. -/
def utf8 (l : List (List Char)) : List (List UInt8) := l.map fun s => s.flatMap String.utf8EncodeChar

/-- In `w` the program writes `l`, up to the first error, and changes nothing else. -/
def Prints (W : IoWrite σ ε) (m t : Nat) (w : World) (p : Prog (writeOps ε) (Except ε Unit))
    (l : List (List UInt8)) : Prop :=
  ∀ x, run (execWrite W m t) p (w, x) = .ok ((W.writes l x).1, w, (W.writes l x).2)

section
variable {W : IoWrite σ ε}

theorem prints_pieces (l : List (List Char)) : Prints W m t w (writePieces l) (utf8 l) := by
  induction l with
  | nil => exact fun x => rfl
  | cons s l ih =>
    intro x
    refine (run_step_ok (rfl : execWrite W m t (.writeAll (s.flatMap String.utf8EncodeChar)) (w, x) =
      .ok (_, w, _))).trans ?_
    rcases hw : W.writeAll (s.flatMap String.utf8EncodeChar) x with ⟨e | ⟨⟩, x'⟩
    · rw [show W.writes (utf8 (s :: l)) x = (.error e, x') from IoWrite.writes_cons_error hw]
      rfl
    · rw [show W.writes (utf8 (s :: l)) x = W.writes (utf8 l) x' from IoWrite.writes_cons_ok hw]
      exact ih x'

theorem Prints.orElse {p q : Prog (writeOps ε) (Except ε Unit)} {l l' : List (List UInt8)}
    (hp : Prints W m t w p l) (hq : Prints W m t w q l') :
    Prints W m t w (Manager.orElse p q) (l ++ l') := by
  intro x
  refine (run_bind _ p _ _).trans ?_
  rw [hp x]
  rcases hw : W.writes l x with ⟨e | ⟨⟩, x'⟩
  · rw [IoWrite.writes_append_error hw]
    rfl
  · rw [IoWrite.writes_append_ok hw]
    exact hq x'

theorem prints_line (label : List Char) {value : Prog ops Nat} {v : Nat}
    (h : run (exec m t) value w = .ok (v, w)) :
    Prints W m t w (debugLine label value) (utf8 [label, Nat.toDigits 10 v, ['\n']]) := by
  intro x
  refine (run_bind _ (value.lift (besideWriter ε)) _ _).trans ?_
  rw [run_besideWriter, h]
  exact prints_pieces _ x

/-- **`Debug` never panics** in a state a run reaches: whatever the writer does, `fmt` writes its four
lines up to the first error, which it reports, and changes nothing. -/
theorem Reach.debug_fmt {u : Nat} (h : Reach t w) (hm : w.made m = true) (hn : w.heap.brk < n) :
    Prints W m u w (debugFmt (w.consts m) n)
      (utf8 (debugPieces (w.mgr m).set.numEntry (w.mgr m).set.buckets.len (w.consts m).numVars)) := by
  have hnum : run (exec m u) getNodeNum w = .ok ((w.mgr m).set.numEntry, w) :=
    (run_table (LockFreeSet.entryNum) w).trans
      (congrArg (fun v => Except.ok ((w.mgr m).set.numEntry, v)) (put_self w m))
  have hsize : run (exec m u) (LockFreeSet.bucketSize.lift table) w =
      .ok ((w.mgr m).set.buckets.len, w) := by
    rw [show (w.mgr m).set.buckets.len = shl64 (w.mgr m).set.sizeExp from (h.sound hm).sized]
    exact (run_table (LockFreeSet.bucketSize) w).trans
      (congrArg (fun v => Except.ok (shl64 (w.mgr m).set.sizeExp, v)) (put_self w m))
  have hvars : run (exec m u) (return (w.consts m).numVars) w = .ok ((w.consts m).numVars, w) := rfl
  have hcheck : Prints W m u w (do
      let _ : Unit ← ((LockFreeSet.sanityCheck n).lift table).lift (besideWriter ε)
      return .ok ()) [] := by
    intro x
    refine (run_bind _ (((LockFreeSet.sanityCheck n).lift table).lift (besideWriter ε)) _ _).trans ?_
    rw [run_besideWriter, h.sanity_check hm hn]
    rfl
  have hall := (prints_pieces ["TOBDD Debug Information\n".toList]).orElse <|
    (prints_line "node_num: ".toList hnum).orElse <|
    (prints_line "bucket_size: ".toList hsize).orElse <|
    (prints_line "var_num: ".toList hvars).orElse hcheck
  exact hall

theorem Reach.debug_fmt_single : Prints (vecWrite Unit) 0 0 (single 8 8 2)
    (debugFmt ((single 8 8 2).consts 0) ((single 8 8 2).heap.brk + 1))
    (utf8 (debugPieces ((single 8 8 2).mgr 0).set.numEntry ((single 8 8 2).mgr 0).set.buckets.len
      ((single 8 8 2).consts 0).numVars)) := by
  obtain ⟨hr, -, hm⟩ := single_ready 8 8 2 (by decide) (by decide)
  generalize single 8 8 2 = w at hr hm ⊢
  exact Reach.debug_fmt hr hm (Nat.lt_succ_self _)

end

end Manager

namespace SetThreads

/-- A thread that runs `sanity_check`. -/
def checkers : Onlookers mem Shared Nat Unit Unit Unit where
  look t o x y := (Store.exec t o x.store).map fun r => (r.1, y)
  code _ _ n := LockFreeSet.sanityCheck n
  legal _ _ _ := True

/-- **`sanity_check` next to inserts.**  While any number of threads insert into a table that was in
order, in any order of their steps, a thread that runs `sanity_check` never panics and never reads a
node that is not there; and it changes nothing, so that the others do what they do without it. -/
theorem sanityCheck_beside_inserts (s₀ : Store) (h₀ : s₀.Inv) (ho : s₀.set.owed = [])
    (hlen : shl64 s₀.set.sizeExp ≤ s₀.set.buckets.len) {t n : Nat} {w : Shared}
    {l : List (Shared × Resume.Answer mem)}
    {s : Scene mem mem Shared Nat Call (Bdd × Bool) Unit Unit Unit}
    (h : checkers.Sees inserts (fun _ => True) ⟨s₀, [], []⟩ t () n () w l s) :
    inserts.Reach (fun _ => True) ⟨s₀, [], []⟩ s.conf ∧
    ∃ q y, s.watch t = some ((), q, y) ∧ ∀ o k, q = .step o k →
      (∃ r, Store.exec t o s.conf.world.store = .ok (r, s.conf.world.store)) ∨
      Store.exec t o s.conf.world.store = .error .spin := by
  let P := (proof s₀).also (fun w w' => w.store.Grows w'.store) (fun _ => .refl _)
    (fun _ _ _ => Store.Grows.trans) fun _ _ _ _ hg => hg.grows
  have hstart : P.inv ⟨s₀, [], []⟩ := inv_start h₀ ho
  have hidle : ∀ t, P.idle t ⟨s₀, [], []⟩ := idle_start h₀ ho
  have hreach := h.conf.1
  -- what it asks are reads
  obtain ⟨⟨q, y, hq, hasks⟩, -⟩ := h.asks (J := fun _ _ => True) (V := fun _ => True)
    (Store.only_sanityCheck n).asks (fun _ _ _ => trivial) fun _ _ _ _ _ _ _ _ => trivial
  -- and the others only make the chains longer
  have hcode : ∀ s₁ : Conf mem Shared Nat Call (Bdd × Bool),
      inserts.Reach (fun _ => True) ⟨s₀, [], []⟩ s₁ → checkers.legal t () s₁.world →
      wp (checkers.logic (P.rely t) (fun e => e = .spin) t) (checkers.code t () n)
        (fun _ _ => True) (s₁.world, ()) := by
    intro s₁ hs₁ _
    have hinv : Inv s₀ s₁.world := (P.sound hstart hidle hs₁).1
    have hlen₁ : shl64 s₁.world.store.set.sizeExp ≤ s₁.world.store.set.buckets.len := by
      rw [hinv.grows.len, hinv.grows.sizeExp]
      exact hlen
    refine wp_mono (fun _ _ _ => trivial) (wp_view (L := Store.looking t)
      (fun x : Shared × Unit => x.1.store) (fun x => Inv s₀ x.1) ?_ ?_ hinv
      (Store.wp_sanityCheck hinv.store hlen₁ n))
    · rintro x x' hx ⟨⟨⟨hinv', -⟩, hg⟩, -⟩
      exact ⟨⟨hinv'.store, hg⟩, hinv'⟩
    · intro o x R hx hd
      refine ⟨trivial, ?_⟩
      have h2 := hd.2
      simp only [Store.looking] at h2
      simp only [Onlookers.logic, checkers]
      cases he : Store.exec t o x.1.store with
      | ok z =>
        rw [he] at h2
        obtain ⟨hg, hR⟩ := h2 trivial
        have hg : z.2 = x.1.store := hg
        exact fun _ => ⟨trivial, hg ▸ hR, hx⟩
      | error e =>
        rw [he] at h2
        exact h2
  obtain ⟨q', y', hq', hwp⟩ := h.wp P hstart hidle (fun _ _ _ _ _ _ => trivial) hcode
  obtain ⟨-, he⟩ := Prod.mk.inj (Option.some.inj (hq.symm.trans hq'))
  obtain ⟨rfl, rfl⟩ := Prod.mk.inj he
  refine ⟨hreach, q, y, hq, ?_⟩
  rintro o k rfl
  have hdoes := (hwp (s.conf.world, y) ⟨P.rely_refl t _ (P.sound hstart hidle hreach).1, rfl⟩).2
  simp only [Onlookers.logic, checkers] at hdoes
  cases he : Store.exec t o s.conf.world.store with
  | ok z =>
    have he' : Store.exec t o s.conf.world.store = .ok (z.1, z.2) := he
    refine Or.inl ⟨z.1, ?_⟩
    rw [← Store.exec_reads hasks.1 he']
  | error e =>
    rw [he] at hdoes
    have hspin : e = .spin := hdoes
    exact Or.inr (congrArg Except.error hspin)

/-- Thread 1 checks.  It has passed the first bucket when thread 0 links its node into the second
one; it meets that node before thread 0 has counted it. -/
theorem sanityCheck_beside_inserts_met :
    ∃ (w : Shared) (l : List (Shared × Resume.Answer mem))
      (s : Scene mem mem Shared Nat Call (Bdd × Bool) Unit Unit Unit) (q : Prog mem Unit),
      checkers.Sees inserts (fun _ => True) ⟨emptyTable, [], []⟩ 1 () 3 () w l s ∧
      l.map Prod.snd = [⟨.key 1, (Node.from' 0 0 0).key⟩, ⟨.load (.head 1), (1 : Nat)⟩,
        ⟨.load (.head 0), (0 : Nat)⟩, ⟨.sizeExp, (1 : Nat)⟩] ∧
      (s.conf.pc 0).isSome ∧ s.conf.world.store.set.numEntry = 0 ∧ s.watch 1 = some ((), q, ()) ∧
      ∀ o k, q = .step o k →
        (∃ r, Store.exec 1 o s.conf.world.store = .ok (r, s.conf.world.store)) ∨
        Store.exec 1 o s.conf.world.store = .error .spin := by
  have h0 : inserts.Reach (fun _ => True) ⟨emptyTable, [], []⟩ _ := .init
  have h1 := h0.call 0 .alloc 0 rfl trivial trivial
  have h2 := h1.ret 0 .alloc (0, false) rfl trivial
  have h3 := h2.call 0 (.insert 1 0 0 0) 3 rfl
    ⟨⟨_, rfl⟩, fun ⟨i, _, hm⟩ => absurd hm List.not_mem_nil, fun _ => List.not_mem_nil⟩ trivial
  have h4 := h3.exec 0 (.insert 1 0 0 0) (.hash 1) _ (splitmix64_3 0 0 0) _ rfl rfl trivial
  have h5 := h4.exec 0 (.insert 1 0 0 0) .sizeExp _ (1 : Nat) _ rfl rfl trivial
  have h6 := h5.exec 0 (.insert 1 0 0 0) (.key 1) _ (Node.from' 0 0 0).key _ rfl rfl trivial
  have h7 := h6.exec 0 (.insert 1 0 0 0) (.load (.head 1)) _ (0 : Nat) _ rfl rfl trivial
  have h8 := h7.exec 0 (.insert 1 0 0 0) (.store (.next 1) 0) _ () _ rfl rfl trivial
  have c0 : checkers.Sees inserts (fun _ => True) ⟨emptyTable, [], []⟩ 1 () 3 () _ _ _ :=
    .start (.unwatched h8) rfl rfl trivial
  have c1 := c0.look .sizeExp _ () (1 : Nat) () rfl rfl
  have c2 := c1.look (.load (.head 0)) _ () (0 : Nat) () rfl rfl
  -- the node is linked
  have h9 := c2.other (.conf _ (.exec (S := mem) 0 (.insert 1 0 0 0) (.cas (.head 1) 0 1) _ true _ rfl
    rfl) fun t ht => by
      have h1 : t = 1 := by
        by_contra hne
        exact ht (by simp only [Function.update_of_ne hne])
      rw [h1]
      rfl) rfl trivial
  have c3 := h9.look (.load (.head 1)) _ () (1 : Nat) () rfl rfl
  have c4 := c3.look (.key 1) _ () (Node.from' 0 0 0).key () rfl rfl
  obtain ⟨-, q, y, hq, hall⟩ := sanityCheck_beside_inserts emptyTable emptyTable_inv rfl
    (Nat.le_refl _) c4
  exact ⟨_, _, _, q, c4, rfl, rfl, rfl, hq, hall⟩

end SetThreads

end Tobdd
