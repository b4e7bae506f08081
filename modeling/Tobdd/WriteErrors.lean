import Tobdd.RoundTrip

/-!
# Writers that fail

`serialize` hands the stream to its writer in fields of eight bytes, and then flushes it.  The
recursion over the nodes unwraps each answer, the header and the flush are passed on.

    serialize_reports: an error of the writer is reported if and only if it does not strike in
                       a record
    serialize_panics: ... and there `serialize` panics
-/

namespace Tobdd

open Resume Diagram

namespace IoWrite

variable {σ ε : Type} (W : IoWrite σ ε)

/-- One `write_all` after the other, up to the first that fails. -/
def writes : List (List UInt8) → σ → Except ε Unit × σ
  | [], x => (.ok (), x)
  | b :: l, x =>
    match W.writeAll b x with
    | (.ok _, x') => writes l x'
    | (.error e, x') => (.error e, x')

/-- All of it, and a flush. -/
def deliver (l : List (List UInt8)) (x : σ) : Except ε Unit × σ :=
  match W.writes l x with
  | (.ok _, x') => W.flush x'
  | (.error e, x') => (.error e, x')

variable {W} {l l' : List (List UInt8)} {b : List UInt8} {x x' : σ} {e : ε}

theorem writes_cons_ok (h : W.writeAll b x = (.ok (), x')) :
    W.writes (b :: l) x = W.writes l x' := by
  simp only [writes, h]

theorem writes_cons_error (h : W.writeAll b x = (.error e, x')) :
    W.writes (b :: l) x = (.error e, x') := by
  simp only [writes, h]

theorem writes_append_ok (h : W.writes l x = (.ok (), x')) :
    W.writes (l ++ l') x = W.writes l' x' := by
  induction l generalizing x with
  | nil =>
    obtain ⟨-, rfl⟩ := Prod.mk.inj h
    rfl
  | cons b l ih =>
    rcases hb : W.writeAll b x with ⟨⟨⟩ | ⟨⟩, x₁⟩
    · rw [writes_cons_error hb] at h
      cases h
    · rw [writes_cons_ok hb] at h
      rw [List.cons_append, writes_cons_ok hb]
      exact ih h

theorem writes_append_error (h : W.writes l x = (.error e, x')) :
    W.writes (l ++ l') x = (.error e, x') := by
  induction l generalizing x with
  | nil => cases h
  | cons b l ih =>
    rcases hb : W.writeAll b x with ⟨⟨⟩ | ⟨⟩, x₁⟩
    · rw [writes_cons_error hb] at h
      rw [List.cons_append, writes_cons_error hb]
      exact h
    · rw [writes_cons_ok hb] at h
      rw [List.cons_append, writes_cons_ok hb]
      exact ih h

theorem deliver_ok (h : W.writes l x = (.ok (), x')) : W.deliver l x = W.flush x' := by
  simp only [deliver, h]

theorem deliver_error (h : W.writes l x = (.error e, x')) : W.deliver l x = (.error e, x') := by
  simp only [deliver, h]

end IoWrite

namespace Manager

open World

/-! ## The fields of a stream -/

/-- The fields of a record, each written by a call of its own. -/
def Record.fields (r : Record) : List (List UInt8) :=
  [toBeBytes r.id, toBeBytes r.level, toBeBytes r.low, toBeBytes r.high]

theorem Record.fields_flatten (r : Record) : r.fields.flatten = r.bytes := by
  simp [Record.fields, Record.bytes]

def headerFields (g : Consts) : List (List UInt8) :=
  [toBeBytes (addr g.falseId), toBeBytes (addr g.trueId)]

def recordFields (g : Consts) (h : Heap) (n : Nat) (a : Bdd) : List (List UInt8) :=
  (records g h n a).flatMap Record.fields

/-- What is written for the node `a`, call by call. -/
def streamFields (g : Consts) (h : Heap) (n : Nat) (a : Bdd) : List (List UInt8) :=
  headerFields g ++ recordFields g h n a

section
variable {σ ε α : Type} {W : IoWrite σ ε} {g : Consts} {m t n : Nat} {tol fails : Prop} {w w' : World}
  {a : Bdd} {x x' : σ} {h : Heap}

theorem recordFields_const (n : Nat) (ha : a = g.trueId ∨ a = g.falseId) :
    recordFields g h n a = [] := by
  unfold recordFields records
  rw [visits_const h n ha]
  rfl

theorem recordFields_inner (n : Nat) (ha : ¬ (a = g.trueId ∨ a = g.falseId)) :
    recordFields g h (n + 1) a = recordFields g h n (h.get a).low ++
      (recordFields g h n (h.get a).high ++ (recordAt h a).fields) := by
  unfold recordFields records
  rw [visits_inner h n ha]
  simp

/-- Call by call, it is the stream. -/
theorem streamFields_flatten (g : Consts) (h : Heap) (n : Nat) (a : Bdd) :
    (streamFields g h n a).flatten = stream g h n a := by
  have hrec : ∀ l : List Record, (l.flatMap Record.fields).flatten = l.flatMap Record.bytes := by
    intro l
    induction l with
    | nil => rfl
    | cons r l ih =>
      rw [List.flatMap_cons, List.flatten_append, ih, Record.fields_flatten, List.flatMap_cons]
  unfold streamFields stream header headerFields recordFields
  rw [List.flatten_append, hrec]
  simp

/-- More rounds than there are levels make no difference. -/
theorem visits_within : ∀ n k a, Within g h n a → Within g h k a → visits g h n a = visits g h k a := by
  intro n
  induction n with
  | zero => exact fun _ _ hn => hn.elim
  | succ n ih =>
    intro k a hn hk
    cases k with
    | zero => exact hk.elim
    | succ k =>
      by_cases ha : a = g.trueId ∨ a = g.falseId
      · rw [visits_const h _ ha, visits_const h _ ha]
      · rw [visits_inner h n ha, visits_inner h k ha, ih k _ (hn ha).1 (hk ha).1,
          ih k _ (hn ha).2 (hk ha).2]

/-! ## serialize -/

/-- Thread `t` writes to the writer `W`; `fails` says that it may panic. -/
def writingTo (W : IoWrite σ ε) (m t : Nat) (tol fails : Prop) : Logic (writeOps ε) (World × σ) :=
  .alone (execWrite W m t) (fun _ _ => True) fun e _ => e = .spin ∧ tol ∨ e = .panic ∧ fails

theorem wp_writeUnwrap {Q : Unit → World × σ → Prop} {b : List UInt8} {l : List (List UInt8)}
    (hf : ∀ e x', W.writes (b :: l) x = (.error e, x') → fails)
    (h : ∀ x', W.writes (b :: l) x = W.writes l x' → Q () (w, x')) :
    wp (writingTo W m t tol fails) (writeUnwrap b) Q (w, x) := by
  rcases hb : W.writeAll b x with ⟨e | ⟨⟩, x₁⟩
  · have hex : execWrite W m t (.writeAll b) (w, x) = .ok ((.error e : Except ε Unit), w, x₁) := by
      simp only [execWrite, hb]
    refine wp_answer hex trivial ?_
    rintro y rfl
    refine Logic.Does.of_error trivial rfl (Or.inr ⟨rfl, hf e x₁ (IoWrite.writes_cons_error hb)⟩)
  · have hex : execWrite W m t (.writeAll b) (w, x) = .ok ((.ok () : Except ε Unit), w, x₁) := by
      simp only [execWrite, hb]
    exact wp_answer hex trivial (h x₁ (IoWrite.writes_cons_ok hb))

theorem wp_fieldTo {o : Access} {k : mem.Res o → Prog (writeOps ε) α} {Q : α → World × σ → Prop}
    {v : mem.Res o} (he : Store.exec t o (w.store m) = .ok (v, w.store m))
    (h : wp (writingTo W m t tol fails) (k v) Q (w, x)) :
    wp (writingTo W m t tol fails) ((step (.acc o)).lift (besideWriter ε) >>= k) Q (w, x) := by
  have hex : execWrite W m t (.mgr (.acc o)) (w, x) = .ok (v, w, x) := by
    simp only [execWrite, exec, he, put_self]
  exact wp_answer hex trivial h

/-- **`write_buffer_rec`** writes every field, or panics. -/
theorem wp_writeBufferRec_to (hn : Now g m w) : ∀ n a x, (w.store m).Live a →
    (tol ∨ Within g w.heap n a) →
    (∀ e x', W.writes (recordFields g w.heap n a) x = (.error e, x') → fails) →
    wp (writingTo W m t tol fails) (writeBufferRec g n a) (fun _ y => Within g w.heap n a ∧
      ∃ x', y = (w, x') ∧ W.writes (recordFields g w.heap n a) x = (.ok (), x')) (w, x) := by
  intro n
  induction n with
  | zero =>
    rintro a x - hr hf y rfl
    exact Logic.Does.of_error trivial rfl (Or.inl ⟨rfl, hr.resolve_right id⟩)
  | succ n ih =>
    intro a x ha hr hf
    unfold writeBufferRec
    refine wp_ite _ (fun h => ?_) fun h => ?_
    · refine ⟨fun hne => absurd h hne, x, rfl, ?_⟩
      rw [recordFields_const _ h]
      rfl
    · obtain ⟨⟨hl, -⟩, hh, -⟩ := hn.children ha h
      have hhas := hn.table.nodes.has a ha
      have hlow : Store.exec t (.low a) (w.store m) = .ok ((w.heap.get a).low, w.store m) :=
        Store.exec_field hhas rfl
      have hhigh : Store.exec t (.high a) (w.store m) = .ok ((w.heap.get a).high, w.store m) :=
        Store.exec_field hhas rfl
      have hlevel : Store.exec t (.level a) (w.store m) = .ok ((w.heap.get a).level, w.store m) :=
        Store.exec_field hhas rfl
      have hfields : (recordAt w.heap a).fields = [toBeBytes (addr a), toBeBytes (w.heap.get a).level,
        toBeBytes (addr (w.heap.get a).low), toBeBytes (addr (w.heap.get a).high)] := rfl
      rw [recordFields_inner _ h, hfields] at hf
      refine wp_fieldTo hlow (wp_seq (ih _ x hl (hr.imp_right fun hw => (hw h).1)
        fun e x' he => hf e x' (IoWrite.writes_append_error he)) ?_)
      rintro _ _ ⟨hwl, x₁, rfl, h₁⟩
      rw [IoWrite.writes_append_ok h₁] at hf
      refine wp_fieldTo hhigh (wp_seq (ih _ x₁ hh (hr.imp_right fun hw => (hw h).2)
        fun e x' he => hf e x' (IoWrite.writes_append_error he)) ?_)
      rintro _ _ ⟨hwh, x₂, rfl, h₂⟩
      rw [IoWrite.writes_append_ok h₂] at hf
      -- the four fields of the node itself
      refine wp_bind.mpr (wp_writeUnwrap hf fun x₃ h₃ => wp_fieldTo hlevel ?_)
      rw [h₃] at hf
      refine wp_bind.mpr (wp_writeUnwrap hf fun x₄ h₄ => wp_fieldTo hlow ?_)
      rw [h₄] at hf
      refine wp_bind.mpr (wp_writeUnwrap hf fun x₅ h₅ => wp_fieldTo hhigh ?_)
      rw [h₅] at hf
      refine wp_writeUnwrap hf fun x₆ h₆ => ⟨fun _ => ⟨hwl, hwh⟩, x₆, rfl, ?_⟩
      rw [recordFields_inner _ h, IoWrite.writes_append_ok h₁, IoWrite.writes_append_ok h₂, hfields]
      exact h₃.trans (h₄.trans (h₅.trans h₆))

/-- The writer takes the header, and fails in one of the records. -/
def FailsInRecords (W : IoWrite σ ε) (g : Consts) (h : Heap) (n : Nat) (a : Bdd) (x : σ) : Prop :=
  ∃ x₁ e x₂, W.writes (headerFields g) x = (.ok (), x₁) ∧
    W.writes (recordFields g h n a) x₁ = (.error e, x₂)

/-- **`serialize`** answers what the writer answers to the whole stream and a flush, or panics. -/
theorem wp_serialize_to (hn : Now g m w) (ha : (w.store m).Live a) (hr : tol ∨ g.numVars < n)
    (x : σ) : wp (writingTo W m t tol (FailsInRecords W g w.heap n a x)) (serialize g a n)
      (fun r y => y.1 = w ∧ (r, y.2) = W.deliver (streamFields g w.heap n a) x ∧
        ¬ FailsInRecords W g w.heap n a x ∧ (r = .ok () → Within g w.heap n a)) (w, x) := by
  have hwrite : ∀ (b : List UInt8) (x : σ), execWrite W m t (.writeAll b) (w, x) =
      .ok ((W.writeAll b x).1, w, (W.writeAll b x).2) := fun _ _ => rfl
  -- the header: an error is passed on
  have herror : ∀ {e : ε} {x' : σ}, W.writes (headerFields g) x = (.error e, x') →
      (.error e, x') = W.deliver (streamFields g w.heap n a) x ∧
      ¬ FailsInRecords W g w.heap n a x ∧
      ((.error e : Except ε Unit) = .ok () → Within g w.heap n a) := by
    intro e x' he
    refine ⟨(IoWrite.deliver_error (IoWrite.writes_append_error he)).symm, ?_, fun h => by cases h⟩
    rintro ⟨x₁, -, -, h₁, -⟩
    cases he.symm.trans h₁
  unfold serialize
  refine wp_answer (hwrite _ _) trivial ?_
  rcases h₁ : W.writeAll (toBeBytes (addr g.falseId)) x with ⟨e | ⟨⟩, x₁⟩
  · exact ⟨rfl, herror (IoWrite.writes_cons_error h₁)⟩
  refine wp_answer (hwrite _ _) trivial ?_
  rcases h₂ : W.writeAll (toBeBytes (addr g.trueId)) x₁ with ⟨e | ⟨⟩, x₂⟩
  · exact ⟨rfl, herror ((IoWrite.writes_cons_ok h₁).trans (IoWrite.writes_cons_error h₂))⟩
  have hheader : W.writes (headerFields g) x = (.ok (), x₂) :=
    (IoWrite.writes_cons_ok h₁).trans (IoWrite.writes_cons_ok h₂)
  show wp _ (writeBufferRec g n a >>= fun _ => _) _ (w, x₂)
  refine wp_seq (wp_writeBufferRec_to hn n a x₂ ha (hr.imp_right fun h =>
    hn.within n a ha (Nat.lt_of_le_of_lt (rank_le ..) h)) fun e x' he => ⟨x₂, e, x', hheader, he⟩) ?_
  rintro _ _ ⟨hw, x₃, rfl, h₃⟩
  have hall : W.writes (streamFields g w.heap n a) x = (.ok (), x₃) :=
    (IoWrite.writes_append_ok hheader).trans h₃
  have hno : ¬ FailsInRecords W g w.heap n a x := by
    rintro ⟨x₁', e, x', h₁', h₂'⟩
    obtain ⟨-, rfl⟩ := Prod.mk.inj (hheader.symm.trans h₁')
    cases h₃.symm.trans h₂'
  have hflush : execWrite W m t .flush (w, x₃) = .ok ((W.flush x₃).1, w, (W.flush x₃).2) := rfl
  refine wp_answer hflush trivial ?_
  rw [IoWrite.deliver_ok hall]
  rcases W.flush x₃ with ⟨e | ⟨⟩, x₄⟩
  · exact ⟨rfl, rfl, hno, fun _ => hw⟩
  · exact ⟨rfl, rfl, hno, fun _ => hw⟩

/-- The same, as a run. -/
theorem run_serialize_to (hn : Now g m w) (ha : (w.store m).Live a) (W : IoWrite σ ε) (t n : Nat)
    (x : σ) :
    (∃ r x', run (execWrite W m t) (serialize g a n) (w, x) = .ok (r, w, x') ∧
      (r, x') = W.deliver (streamFields g w.heap n a) x ∧ ¬ FailsInRecords W g w.heap n a x ∧
      (r = .ok () → Within g w.heap n a)) ∨
    ∃ e, run (execWrite W m t) (serialize g a n) (w, x) = .error e ∧
      (e = .spin ∧ ¬ g.numVars < n ∨ e = .panic ∧ FailsInRecords W g w.heap n a x) := by
  have h := wp_run (fun _ => trivial) (fun _ _ _ _ _ => trivial) (wp_serialize_to (W := W) (t := t)
    hn ha (Classical.em (g.numVars < n)).symm x)
  rcases h with ⟨r, ⟨_, x'⟩, hrun, ⟨rfl, hq⟩, -⟩ | ⟨e, _, hrun, hs, -⟩
  · exact Or.inl ⟨r, x', hrun, hq⟩
  · exact Or.inr ⟨e, hrun, hs⟩

/-! ## Errors are reported -/

/-- Thread `t` serializes the node `a` to the writer `W`, which is in the state `x`: the first
error of the writer is the answer, and `Ok` means that all was written and flushed. -/
structure Reports (W : IoWrite σ ε) (m t : Nat) (w : World) (a : Bdd) (x : σ) : Prop where
  errors : ∀ e x', W.deliver (streamFields (w.consts m) w.heap ((w.consts m).numVars + 1) a) x =
    (.error e, x') → ∃ N, ∀ n, N ≤ n →
      run (execWrite W m t) (serialize (w.consts m) a n) (w, x) = .ok (.error e, w, x')
  complete : ∀ n w' x', run (execWrite W m t) (serialize (w.consts m) a n) (w, x) =
    .ok (.ok (), w', x') → w' = w ∧ W.deliver
      (streamFields (w.consts m) w.heap ((w.consts m).numVars + 1) a) x = (.ok (), x')

theorem recordFields_within {n k : Nat} (hn : Within g h n a) (hk : Within g h k a) :
    recordFields g h n a = recordFields g h k a := by
  unfold recordFields records
  rw [visits_within n k a hn hk]

/-- A node at rest. -/
theorem reports_iff (hn : Now (w.consts m) m w) (ha : (w.store m).Live a) (W : IoWrite σ ε) (t : Nat)
    (x : σ) : Reports W m t w a x ↔
      ¬ FailsInRecords W (w.consts m) w.heap ((w.consts m).numVars + 1) a x := by
  have hwithin : ∀ n, (w.consts m).numVars + 1 ≤ n → Within (w.consts m) w.heap n a := fun n h =>
    hn.within n a ha (Nat.lt_of_le_of_lt (rank_le ..) h)
  have hfields : ∀ n, Within (w.consts m) w.heap n a → recordFields (w.consts m) w.heap n a =
      recordFields (w.consts m) w.heap ((w.consts m).numVars + 1) a := fun n h =>
    recordFields_within h (hwithin _ (Nat.le_refl _))
  constructor
  · rintro ⟨herr, -⟩ hf
    obtain ⟨x₁, e, x₂, h₁, h₂⟩ := hf
    obtain ⟨N, hN⟩ := herr e x₂ (IoWrite.deliver_error ((IoWrite.writes_append_ok h₁).trans h₂))
    have hrun := hN (N + ((w.consts m).numVars + 1)) (by omega)
    rcases run_serialize_to hn ha W t (N + ((w.consts m).numVars + 1)) x with
      ⟨r, x', -, -, hno, -⟩ | ⟨e', hrun', -⟩
    · refine hno ⟨x₁, e, x₂, h₁, ?_⟩
      rw [hfields _ (hwithin _ (by omega))]
      exact h₂
    · cases hrun.symm.trans hrun'
  · intro hno
    constructor
    · intro e x' hd
      refine ⟨(w.consts m).numVars + 1, fun n hle => ?_⟩
      have he := hfields n (hwithin n hle)
      rcases run_serialize_to hn ha W t n x with ⟨r, x₁, hrun, hq, -⟩ | ⟨e', -, ⟨-, h⟩ | ⟨-, h⟩⟩
      · unfold streamFields at hq hd
        rw [he, hd] at hq
        obtain ⟨rfl, rfl⟩ := Prod.mk.inj hq
        exact hrun
      · exact absurd hle h
      · unfold FailsInRecords at h hno
        rw [he] at h
        exact absurd h hno
    · intro n w' x' hrun
      rcases run_serialize_to hn ha W t n x with ⟨r, x₁, hrun', hq, -, hw⟩ | ⟨e', hrun', -⟩
      · obtain ⟨rfl, h2⟩ := Prod.mk.inj (Except.ok.inj (hrun.symm.trans hrun'))
        obtain ⟨rfl, rfl⟩ := Prod.mk.inj h2
        refine ⟨rfl, ?_⟩
        unfold streamFields at hq ⊢
        rw [← hfields n (hw rfl)]
        exact hq.symm
      · cases hrun.symm.trans hrun'

/-- **Errors of the writer are reported**, in every state, for every node and every writer, if and
only if none strikes in a record. -/
theorem Reach.serialize_reports (h : Reach t w) (hw : w.Whole) (hm : w.made m = true)
    (ha : (w.store m).Live a) (W : IoWrite σ ε) (u : Nat) (x : σ) :
    Reports W m u w a x ↔
      ¬ FailsInRecords W (w.consts m) w.heap ((w.consts m).numVars + 1) a x :=
  reports_iff ((h.resting hw).now hm) ha W u x

end

/-- A disk on which `k` more writes fit. -/
def disk : IoWrite Nat Unit where
  writeAll _ k := if k = 0 then (.error (), 0) else (.ok (), k - 1)
  flush k := (.ok (), k)

theorem disk_writes (l : List (List UInt8)) (k : Nat) : disk.writes l k =
    if l.length ≤ k then (.ok (), k - l.length) else (.error (), 0) := by
  induction l generalizing k with
  | nil => simp [IoWrite.writes]
  | cons b l ih =>
    cases k with
    | zero => rfl
    | succ k =>
      have hb : disk.writeAll b (k + 1) = (.ok (), k) := rfl
      rw [IoWrite.writes_cons_ok hb, ih]
      simp

/-- Where the disk is full at once, that is reported. -/
theorem Reach.serialize_reports_single : ∃ a, Reports disk 0 0 (single 8 8 2) a 0 := by
  obtain ⟨hr, hw, hm, -, a, ha, -⟩ := single_source
  refine ⟨a, (Reach.serialize_reports hr hw hm ha.1 disk 0 0).mpr ?_⟩
  rintro ⟨x₁, -, -, h₁, -⟩
  rw [disk_writes] at h₁
  cases h₁

/-- Where the disk is full after the header, `serialize` panics. -/
theorem serialize_panics : ∃ a x', ((single 8 8 2).store 0).Live a ∧
    disk.deliver (streamFields ((single 8 8 2).consts 0) (single 8 8 2).heap
      (((single 8 8 2).consts 0).numVars + 1) a) 2 = (.error (), x') ∧
    (∀ n, ((single 8 8 2).consts 0).numVars < n →
      run (execWrite disk 0 0) (serialize ((single 8 8 2).consts 0) a n) (single 8 8 2, 2) =
        .error .panic) ∧
    ¬ Reports disk 0 0 (single 8 8 2) a 2 := by
  obtain ⟨hr, hw, hm, -, a, ha, hT, hF⟩ := single_source
  have hn := (hr.resting hw).now hm
  have hh : disk.writes (headerFields ((single 8 8 2).consts 0)) 2 = (.ok (), 0) :=
    disk_writes ..
  have hfails : ∀ n, disk.writes
      (recordFields ((single 8 8 2).consts 0) (single 8 8 2).heap (n + 1) a) 0 = (.error (), 0) := by
    intro n
    rw [disk_writes, if_neg]
    rw [recordFields_inner n (not_or.mpr ⟨hT, hF⟩)]
    simp [Record.fields]
  refine ⟨a, 0, ha.1, ?_, fun n hlt => ?_, fun h => ?_⟩
  · exact IoWrite.deliver_error ((IoWrite.writes_append_ok hh).trans (hfails _))
  · obtain ⟨k, rfl⟩ : ∃ k, n = k + 1 := ⟨n - 1, by omega⟩
    rcases run_serialize_to hn ha.1 disk 0 (k + 1) 2 with ⟨r, x', -, -, hno, -⟩ | ⟨e, hrun, he⟩
    · exact absurd ⟨0, (), 0, hh, hfails k⟩ hno
    · rcases he with ⟨-, h⟩ | ⟨rfl, -⟩
      · exact absurd hlt h
      · exact hrun
  · exact (reports_iff hn ha.1 disk 0 2).mp h ⟨0, (), 0, hh, hfails _⟩

end Manager

end Tobdd
