import Tobdd.Calls
import Tobdd.Stream

/-!
# What deserialize makes of a stream

`Means F m w map`: the table of ids `map` has nodes of manager `m` for what `F` knows.
Reading a record keeps that up (`wp_record`), as long as the record is sound, and so does
reading all of them (`wp_readNodes`).

    wp_deserialize: a readable stream with a record is answered with the node of the function
                    of its last record
    run_deserialize_short: a stream without a header is refused
    run_deserialize_empty: one without a record is not answered
-/

namespace Tobdd.Manager

open Resume Diagram World

/-- What `deserialize` does to the world while it holds the read guard: the table grows, and
references come and go. -/
structure Extends (m t : Nat) (w w' : World) : Prop where
  inv : w'.Inv
  reads : Reads m w w'
  lock : (w'.mgr m).rwLock = (w.mgr m).rwLock
  others : ∀ k, k ≠ m → w'.mgr k = w.mgr k
  onward : Onward w w'
  frees : w'.heap.frees = w.heap.frees
  freeId : ∀ u, u ≠ t → w'.freeId u = w.freeId u

section
variable {σ ε α : Type} {debug : Bool} {g : Consts} {m t : Nat} {tol : Prop} {w w' : World} {a : Bdd}
  {f : BoolFn} {R : IoRead σ ε} {content : σ → List UInt8}

theorem Extends.refl (hn : Now g m w) : Extends m t w w :=
  ⟨hn.inv, .refl hn.inv hn.made, rfl, fun _ _ => rfl, .refl w, rfl, fun _ _ => rfl⟩

theorem Extends.trans {w₁ w₂ w₃ : World} (h1 : Extends m t w₁ w₂) (h2 : Extends m t w₂ w₃) :
    Extends m t w₁ w₃ :=
  ⟨h2.inv, h1.reads.trans h2.reads, h2.lock.trans h1.lock,
    fun k hk => (h2.others k hk).trans (h1.others k hk), h1.onward.trans h2.onward,
    h2.frees.trans h1.frees, fun u hu => (h2.freeId u hu).trans (h1.freeId u hu)⟩

theorem Extends.of_works (hn : Now g m w) (h : Works m t w w') : Extends m t w w' :=
  ⟨h.inv, h.reads, h.lock, h.others, h.onward hn.inv hn.made, h.frees, h.freeId⟩

theorem Extends.recount (hn : Now g m w) (ha : (w.store m).Live a) (c : UInt64 → UInt64) :
    Extends m t w (w.recount a c) := by
  have hlive := recount_live hn.inv hn.made a c
  refine ⟨hn.inv.recount hn.made ha c, ⟨rfl, rfl, fun b hb => (hlive b).mpr hb, fun b hb => ?_,
    fun b _ => (recount_node w a c b).alike, ?_⟩, rfl, fun _ _ => rfl, .recount hn.inv a c, rfl,
    fun _ _ => rfl⟩
  · exact (recount_has w a c b).mpr (hn.table.nodes.has b hb)
  · exact ⟨fun ⟨h1, h2, h3⟩ => ⟨h1, h2, h3⟩, fun ⟨h1, h2, h3⟩ => ⟨h1, h2, h3⟩⟩

theorem Extends.now (hn : Now g m w) (h : Extends m t w w') : Now g m w' := hn.reads h.inv h.reads

/-- Thread `t` reads from `R`. -/
def decoding (R : IoRead σ ε) (m t : Nat) (tol : Prop) : Logic (readOps ε) (World × σ) :=
  .alone (execRead R m t) (fun _ _ => True) fun e _ => e = .spin ∧ tol

/-! ## The steps -/

theorem wp_readOp {o : ReadOp} {k : (readOps ε).Res o → Prog (readOps ε) α}
    {Q : α → World × σ → Prop} {r : (readOps ε).Res o} {x x' : World × σ}
    (he : execRead R m t o x = .ok (r, x')) (h : wp (decoding R m t tol) (k r) Q x') :
    wp (decoding R m t tol) (.step o k) Q x := by
  unfold decoding at h ⊢
  exact wp_answer he trivial h

/-- A step of the manager. -/
theorem wp_mgrOp {o : Op} {k : ops.Res o → Prog (readOps ε) α} {Q : α → World × σ → Prop}
    {r : ops.Res o} {x : σ} (he : exec m t o w = .ok (r, w'))
    (h : wp (decoding R m t tol) (k r) Q (w', x)) :
    wp (decoding R m t tol) ((step o).lift (besideReader ε) >>= k) Q (w, x) := by
  refine wp_readOp (o := .mgr o) (r := r) ?_ h
  simp only [execRead, he]

/-- Bytes that are there are read. -/
theorem wp_readExact (hR : Delivers R content) {k : Except ε (List UInt8) → Prog (readOps ε) α}
    {Q : α → World × σ → Prop} {x : σ} {n : Nat} (hn : n ≤ (content x).length)
    (h : ∀ x', content x' = (content x).drop n →
      wp (decoding R m t tol) (k (.ok ((content x).take n))) Q (w, x')) :
    wp (decoding R m t tol) (readExact n >>= k) Q (w, x) := by
  obtain ⟨x', hr, hx'⟩ := hR.read n x hn
  refine wp_readOp (o := .readExact n) (r := .ok ((content x).take n)) ?_ (h x' hx')
  simp only [execRead, hr]

/-- Bytes that are not there are not read. -/
theorem wp_readShort (hR : Delivers R content) {k : Except ε (List UInt8) → Prog (readOps ε) α}
    {Q : α → World × σ → Prop} {x : σ} {n : Nat} (hn : (content x).length < n)
    (h : ∀ e x', wp (decoding R m t tol) (k (.error e)) Q (w, x')) :
    wp (decoding R m t tol) (readExact n >>= k) Q (w, x) := by
  obtain ⟨e, x', hr⟩ := hR.short n x hn
  refine wp_readOp (o := .readExact n) (r := .error e) ?_ (h e x')
  simp only [execRead, hr]

theorem wp_readSpin {map : IdMap} {ret : Bdd} {x : World × σ} {Q : IdMap × Bdd → World × σ → Prop}
    (h : tol) : wp (decoding R m t tol) (readNodes debug g 0 map ret) Q x := by
  rintro x rfl
  exact Logic.Does.of_error trivial rfl ⟨rfl, h⟩

/-- An assertion that holds where the profile asks for it. -/
theorem wp_debugAssert {c : Prop} [Decidable c] {k : Unit → Prog (readOps ε) α}
    {Q : α → World × σ → Prop} {x : World × σ} (hc : debug = true → c)
    (h : wp (decoding R m t tol) (k ()) Q x) :
    wp (decoding R m t tol) (debugAssert debug c >>= k) Q x := by
  unfold debugAssert
  rw [if_neg fun hd => hd.2 (hc hd.1)]
  exact h

/-- An id that is known. -/
theorem wp_getUnwrap {map : IdMap} {id : UInt64} {b : Bdd} {k : Bdd → Prog (readOps ε) α}
    {Q : α → World × σ → Prop} {x : World × σ} (hb : map.lookup id = some b)
    (h : wp (decoding R m t tol) (k b) Q x) :
    wp (decoding R m t tol) (getUnwrap map id >>= k) Q x := by
  unfold getUnwrap
  rw [hb]
  exact h

/-- A node for children that are the same is not made. -/
theorem exec_makeNode_same (w : World) (level : UInt64) (low : Bdd) :
    exec m t (.makeNode level low low) w = .ok (low, w) := by
  have hrun : ∀ n, run (Store.exec t) (Tobdd.makeNode level low low n) (w.store m) =
      .ok (low, w.store m) := fun n => by
    unfold Tobdd.makeNode
    rw [if_pos rfl]
    rfl
  simp only [exec, hrun, put_self]

end

/-! ## The table of ids -/

/-- The nodes in `map` stand for what `F` knows. -/
def Means (F : Meaning) (m : Nat) (w : World) (map : IdMap) : Prop :=
  ∀ id, (F id = none ∧ map.lookup id = none) ∨
    ∃ f b, F id = some f ∧ map.lookup id = some b ∧ w.Stands m b f

section
variable {σ ε α : Type} {debug : Bool} {g : Consts} {m t : Nat} {tol : Prop} {w w' : World} {a b : Bdd}
  {f f' : BoolFn} {R : IoRead σ ε} {content : σ → List UInt8} {F : Meaning} {map : IdMap}

theorem Means.known (h : Means F m w map) {id : UInt64} (hf : F id = some f) :
    ∃ b, map.lookup id = some b ∧ w.Stands m b f := by
  rcases h id with ⟨h1, -⟩ | ⟨f', b, h1, h2, h3⟩
  · rw [h1] at hf
    cases hf
  · obtain rfl := Option.some.inj (h1.symm.trans hf)
    exact ⟨b, h2, h3⟩

theorem Means.of_lookup (h : Means F m w map) {id : UInt64} (hb : map.lookup id = some b) :
    ∃ f, F id = some f ∧ w.Stands m b f := by
  rcases h id with ⟨-, h2⟩ | ⟨f, b', h1, h2, h3⟩
  · rw [h2] at hb
    cases hb
  · obtain rfl := Option.some.inj (h2.symm.trans hb)
    exact ⟨f, h1, h3⟩

theorem Means.extends (hn : Now g m w) (h : Extends m t w w') (hm : Means F m w map) :
    Means F m w' map := fun id => (hm id).imp_right fun ⟨f, b, h1, h2, h3⟩ =>
  ⟨f, b, h1, h2, hn.stands h.reads h3⟩

theorem Means.insert (hm : Means F m w map) (id : UInt64) (hb : w.Stands m b f) :
    Means (Function.update F id (some f)) m w (map.insert id b) := by
  intro i
  by_cases hi : i = id
  · subst hi
    refine Or.inr ⟨f, b, Function.update_self .., ?_, hb⟩
    rw [AList.lookup_insert]
  · rw [Function.update_of_ne hi, AList.lookup_insert_ne hi]
    exact hm i

/-- What a node of the table of ids is the value of. -/
theorem Means.mem_values (hm : Means F m w map) (hb : b ∈ map.entries.map Sigma.snd) :
    ∃ id f, map.lookup id = some b ∧ F id = some f ∧ w.Stands m b f := by
  obtain ⟨⟨id, b⟩, hmem, rfl⟩ := List.mem_map.mp hb
  have hl : map.lookup id = some b := AList.mem_lookup_iff.mpr hmem
  obtain ⟨f, h1, h2⟩ := hm.of_lookup hl
  exact ⟨id, f, hl, h1, h2⟩

/-- **One record**: its node is made and referenced. -/
theorem exec_record (hn : Now g m w) (hm : Means F m w map) {r : Record}
    (hr : r.Sound debug g.numVars F) : ∃ bl bh b f w₂ w',
      map.lookup r.low = some bl ∧ map.lookup r.high = some bh ∧
      exec m t (.makeNode r.level bl bh) w = .ok (b, w₂) ∧
      exec m t (.acc (.fetchAdd b)) w₂ = .ok ((), w') ∧
      Extends m t w w' ∧ r.value F = some f ∧ w'.Stands m b f ∧
      Means (F.learn r) m w' (map.insert r.id b) ∧
      ∀ a, a ≠ b → (w'.heap.get a).refCnt = (w.heap.get a).refCnt := by
  obtain ⟨-, f, f', hf, hf', hord⟩ := hr
  obtain ⟨bl, hbl, hsl⟩ := hm.known hf
  obtain ⟨bh, hbh, hsh⟩ := hm.known hf'
  have hval := r.value_eq hf hf'
  obtain ⟨b, w₂, he, hw₂, hst⟩ : ∃ b w', exec m t (.makeNode r.level bl bh) w = .ok (b, w') ∧
      Works m t w w' ∧ w'.Stands m b (choose r.level.toNat f f') := by
    rcases hord with rfl | ⟨hlv, hfl, hfh⟩
    · obtain rfl : bl = bh := hn.table.canonical (hn.stands_iff.mp hsl).1 (hn.stands_iff.mp hsh).1
        (hn.stands_iff.mp hsl).2 (hn.stands_iff.mp hsh).2
      refine ⟨bl, w, exec_makeNode_same w r.level bl, .refl hn.inv hn.made, ?_⟩
      rw [choose_self]
      exact hsl
    · exact exec_makeNode hn hsl hsh hfl hfh hlv
  have hx₂ := Extends.of_works hn hw₂
  have hn₂ := hx₂.now hn
  have hx₃ := Extends.recount (t := t) hn₂ hst.1 (· + 1)
  have hx := hx₂.trans hx₃
  have hst₃ := hn₂.stands hx₃.reads hst
  refine ⟨bl, bh, b, _, w₂, _, hbl, hbh, he, exec_fetchAdd (hn₂.table.nodes.has b hst.1), hx, hval,
    hst₃, ?_, fun a ha => ?_⟩
  · unfold Meaning.learn
    rw [hval]
    exact (hm.extends hn hx).insert r.id hst₃
  · exact (recount_refs_of_ne w₂ b (· + 1) ha).trans (hw₂.refs a)

/-- The same, and its id is entered. -/
theorem wp_record (hn : Now g m w) (hm : Means F m w map) {r : Record} (hr : r.Sound debug g.numVars F)
    {n : Nat} {x : σ} {Q : IdMap × Bdd → World × σ → Prop}
    (hk : ∀ b f w', Extends m t w w' → r.value F = some f → w'.Stands m b f →
      Means (F.learn r) m w' (map.insert r.id b) →
      (∀ a, a ≠ b → (w'.heap.get a).refCnt = (w.heap.get a).refCnt) →
      wp (decoding R m t tol) (readNodes debug g n (map.insert r.id b) b) Q (w', x)) :
    wp (decoding R m t tol) (do
      debugAssert debug (r.level.toNat ≤ g.numVars)
      let mappedLow ← getUnwrap map r.low
      let mappedHigh ← getUnwrap map r.high
      let ret : Bdd ← (step (.makeNode r.level mappedLow mappedHigh)).lift (besideReader ε)
      (refBdd ret).lift (besideReader ε)
      readNodes debug g n (map.insert r.id ret) ret) Q (w, x) := by
  obtain ⟨bl, bh, b, f, w₂, w', hbl, hbh, he, he', hx, hval, hst, hm', hrefs⟩ :=
    exec_record (t := t) hn hm hr
  refine wp_debugAssert hr.1 (wp_getUnwrap hbl (wp_getUnwrap hbh ?_))
  exact wp_mgrOp he (wp_mgrOp he' (hk b f w' hx hval hst hm' hrefs))

/-- What the loop over the records has done. -/
structure Decoded (F : Meaning) (l : List Record) (m t : Nat) (w : World) (ret : Bdd) (w' : World)
    (map' : IdMap) (ret' : Bdd) : Prop where
  ext : Extends m t w w'
  means : Means (F.after l) m w' map'
  last : ∀ r, l.getLast? = some r → map'.lookup r.id = some ret'
  none : l = [] → ret' = ret
  refs : ∀ a, (∀ f, w'.Stands m a f → some f ∉ values F l) →
    (w'.heap.get a).refCnt = (w.heap.get a).refCnt

/-- **The loop over the records.** -/
theorem wp_readNodes (hR : Delivers R content) : ∀ n F w (map : IdMap) ret x, Now g m w →
    Means F m w map → Readable debug g.numVars F (body (content x)) →
    (tol ∨ (body (content x)).length < n) →
    wp (decoding R m t tol) (readNodes debug g n map ret) (fun r y =>
      Decoded F (body (content x)) m t w ret y.1 r.1 r.2) (w, x) := by
  intro n
  induction n with
  | zero =>
    intro F w map ret x _ _ _ hfuel
    exact wp_readSpin (hfuel.resolve_right (Nat.not_lt_zero _))
  | succ n ih =>
    intro F w map ret x hn hm hread hfuel
    unfold readNodes
    by_cases hlen : 32 ≤ (content x).length
    · rw [body_cons hlen] at hread hfuel ⊢
      refine wp_readExact hR hlen fun x' hx' => ?_
      rw [← hx'] at hread hfuel ⊢
      refine wp_record hn hm hread.1 fun b f w₂ hx₂ hval hst hm₂ hrefs => ?_
      have hn₂ := hx₂.now hn
      refine wp_mono ?_ (ih _ w₂ _ b x' hn₂ hm₂ hread.2
        (hfuel.imp_right fun h => Nat.lt_of_succ_lt_succ h))
      rintro ⟨map', ret'⟩ ⟨w₃, x₃⟩ h
      have hx₃ : Extends m t w₂ w₃ := h.ext
      refine ⟨hx₂.trans hx₃, h.means, fun r hr => ?_, fun h0 => (by cases h0), fun a ha => ?_⟩
      · cases hbody : body (content x') with
        | nil =>
          rw [hbody] at hr h
          have hlast : recordOf ((content x).take 32) = r := Option.some.inj hr
          subst hlast
          -- no record follows
          obtain rfl : ret' = b := h.none rfl
          obtain ⟨b', hb', hst'⟩ := h.means.known (f := f)
            ((Function.update_self ..).trans hval)
          have hn₃ := hx₃.now hn₂
          rw [hb', hn₃.table.canonical (hn₃.stands_iff.mp hst').1
            (hn₃.stands_iff.mp (hn₂.stands hx₃.reads hst)).1 (hn₃.stands_iff.mp hst').2
            (hn₃.stands_iff.mp (hn₂.stands hx₃.reads hst)).2]
        | cons r' l =>
          refine h.last r ?_
          rw [hbody] at hr ⊢
          rwa [List.getLast?_cons_cons] at hr
      · have hab : a ≠ b := by
          rintro rfl
          refine ha f (hn₂.stands hx₃.reads hst) ?_
          unfold values
          rw [hval]
          exact List.mem_cons_self
        refine (h.refs a fun f' hf' hmem => ?_).trans (hrefs a hab)
        exact ha f' hf' (List.mem_cons_of_mem _ hmem)
    · rw [body_short (Nat.lt_of_not_le hlen)] at hread hfuel ⊢
      refine wp_readShort hR (Nat.lt_of_not_le hlen) fun e x' => ?_
      exact ⟨.refl hn, hm, fun r hr => (by cases hr), fun _ => rfl, fun _ _ => rfl⟩

/-- `deref_bdd` of nodes of the table. -/
theorem wp_derefAll {x : σ} : ∀ (l : List Bdd) w, Now g m w → (∀ b ∈ l, (w.store m).Live b) →
    wp (decoding R m t tol) ((derefAll l).lift (besideReader ε)) (fun _ y => ∃ w', y = (w', x) ∧
      Extends m t w w' ∧
      ∀ a, (w'.heap.get a).refCnt = (w.heap.get a).refCnt - UInt64.ofNat (l.count a)) (w, x) := by
  intro l
  induction l with
  | nil => exact fun w hn _ => ⟨w, rfl, .refl hn, fun a => (UInt64.sub_zero _).symm⟩
  | cons b l ih =>
    intro w hn hl
    have hb := hl b List.mem_cons_self
    have hx := Extends.recount (t := t) hn hb (· - 1)
    unfold derefAll
    rw [lift_bind]
    refine wp_mgrOp (exec_fetchSub (hn.table.nodes.has b hb)) ?_
    refine wp_mono ?_ (ih _ (hx.now hn)
      fun c hc => hx.reads.live c (hl c (List.mem_cons_of_mem _ hc)))
    rintro _ x ⟨w', rfl, hx', hrefs⟩
    refine ⟨w', rfl, hx.trans hx', fun a => (hrefs a).trans ?_⟩
    by_cases hab : a = b
    · subst hab
      rw [recount_refs_self w a _ (hn.table.nodes.has a hb), List.count_cons_self]
      apply UInt64.toNat_inj.mp
      simp only [UInt64.toNat_sub, UInt64.toNat_ofNat', UInt64.toNat_one]
      omega
    · rw [recount_refs_of_ne w b _ hab, List.count_cons_of_ne (Ne.symm hab)]

/-- What a call of thread `t` that has read a stream in `w` has done when it answers `h`. -/
structure ReadBack (m t : Nat) (w w' : World) (h : Bdd) (f : BoolFn) : Prop where
  inv : w'.Inv
  made : w'.made = w.made
  idle : w'.Idle m
  others : ∀ k, k ≠ m → w'.mgr k = w.mgr k
  stands : w'.Stands m h f
  onward : Onward w w'
  frees : w'.heap.frees = w.heap.frees
  freeId : ∀ u, u ≠ t → w'.freeId u = w.freeId u

/-! ## deserialize -/

/-- The bytes of a stream are in order: a header, and records that can be read after it. -/
structure Legible (debug : Bool) (numVars : Nat) (bytes : List UInt8) : Prop where
  header : 16 ≤ bytes.length
  readable : Readable debug numVars (.start (word bytes 0) (word bytes 1)) (body (bytes.drop 16))

/-- The function that the last record of a stream describes. -/
def Describes (bytes : List UInt8) (f : BoolFn) : Prop :=
  ∃ r, (body (bytes.drop 16)).getLast? = some r ∧
    Meaning.after (.start (word bytes 0) (word bytes 1)) (body (bytes.drop 16)) r.id = some f

theorem word_take {bytes : List UInt8} {k i : Nat} (h : 8 * i + 8 ≤ k) :
    word (bytes.take k) i = word bytes i := by
  unfold word
  rw [List.drop_take, List.take_take, Nat.min_eq_left (by omega)]

/-- A stream with a record, all of which can be read, describes something. -/
theorem Legible.describes {debug : Bool} {numVars : Nat} {bytes : List UInt8} (h : Legible debug numVars bytes)
    (hne : body (bytes.drop 16) ≠ []) : ∃ f, Describes bytes f := by
  obtain ⟨r, hr⟩ := Option.ne_none_iff_exists'.mp fun h0 => hne (List.getLast?_eq_none_iff.mp h0)
  obtain ⟨l, hl, he⟩ := Meaning.after_last (F := .start (word bytes 0) (word bytes 1)) hr
  have hread := h.readable
  rw [hl, readable_append] at hread
  obtain ⟨-, f, f', hf, hf', -⟩ := hread.2.1
  exact ⟨_, r, hr, he.trans (r.value_eq hf hf')⟩

theorem means_start (hn : Now g m w) (falseId trueId : UInt64) :
    Means (.start falseId trueId) m w
      (((∅ : IdMap).insert falseId g.falseId).insert trueId g.trueId) :=
  Means.insert (Means.insert (fun id => Or.inl ⟨rfl, AList.lookup_empty id⟩) falseId hn.bot) trueId
    hn.top

/-- The references after a stream was read, for a node whose function no record describes: one
is gone for each id of the node. -/
def Dropped (F : Meaning) (l : List Record) (m : Nat) (w w' : World) (map : IdMap) : Prop :=
  ∀ a, (∀ f, w'.Stands m a f → some f ∉ values F l) → (w'.heap.get a).refCnt =
    (w.heap.get a).refCnt - UInt64.ofNat ((map.entries.map Sigma.snd).count a)

/-- **`deserialize`** of a stream with a record, all of which can be read. -/
theorem wp_deserialize (hR : Delivers R content) (hn : Now g m w) (hl : w.Idle m) {x : σ}
    (hleg : Legible debug g.numVars (content x)) (hf : Describes (content x) f) {n : Nat}
    (hfuel : tol ∨ (content x).length < n) :
    wp (decoding R m t tol) (deserialize debug g n) (fun r y => ∃ h map, r = .ok h ∧
      ReadBack m t w y.1 h f ∧
      Means (Meaning.after (.start (word (content x) 0) (word (content x) 1))
        (body ((content x).drop 16))) m y.1 map ∧
      Dropped (.start (word (content x) 0) (word (content x) 1)) (body ((content x).drop 16)) m w y.1
        map) (w, x) := by
  have hon := Onward.withLock w m ⟨[t], none⟩
  have hn₁ : Now g m (w.withLock m ⟨[t], none⟩) :=
    ⟨hn.inv.withLock m _, hn.made, by rw [withLock_consts, hn.consts]⟩
  unfold deserialize
  refine wp_mgrOp (exec_read hl) (wp_readExact hR hleg.header fun x₁ hx₁ => ?_)
  have hread := hleg.readable
  obtain ⟨r, hr, hfr⟩ := hf
  rw [← hx₁] at hread hr hfr ⊢
  show wp (decoding R m t tol) (readNodes debug g n _ 0 >>= fun _ => _) _ (_, _)
  rw [word_take (by decide), word_take (by decide)]
  have hlen : (body (content x₁)).length ≤ (content x).length := by
    rw [body_length, hx₁, List.length_drop]
    omega
  refine wp_seq (wp_readNodes hR n _ _ _ 0 x₁ hn₁ (means_start hn₁ _ _) hread
    (hfuel.imp_right fun h => Nat.lt_of_le_of_lt hlen h)) ?_
  rintro ⟨map, ret⟩ ⟨w₂, x₂⟩ hd
  have hx₂ : Extends m t (w.withLock m ⟨[t], none⟩) w₂ := hd.ext
  have hn₂ := hx₂.now hn₁
  -- the result is the node of the last record
  have hst₂ : w₂.Stands m ret f := by
    obtain ⟨b, hb, hst⟩ := hd.means.known hfr
    obtain rfl := Option.some.inj (hb.symm.trans (hd.last r hr))
    exact hst
  show wp (decoding R m t tol) ((derefAll _).lift (besideReader ε) >>= fun _ => _) _ (w₂, x₂)
  refine wp_seq (wp_derefAll _ w₂ hn₂ fun b hb => ?_) ?_
  · obtain ⟨_, _, -, -, h⟩ := hd.means.mem_values hb
    exact h.1
  rintro _ _ ⟨w₃, rfl, hx₃, hrefs₃⟩
  have hn₃ := hx₃.now hn₂
  have hst₃ := hn₂.stands hx₃.reads hst₂
  have hx₄ := Extends.recount (t := t) hn₃ hst₃.1 (· + 1)
  have hx := (hx₂.trans hx₃).trans hx₄
  have hst₄ := hn₃.stands hx₄.reads hst₃
  have hlock : ((w₃.recount ret (· + 1)).mgr m).rwLock = ⟨[t], none⟩ := by
    rw [hx.lock, withLock_mgr]
  have hon₅ := Onward.withLock (w₃.recount ret (· + 1)) m ⟨[], none⟩
  have hst₅ := hon₅.stands m ret f (hx.now hn₁).made hst₄ rfl
  refine wp_mgrOp (exec_fetchAdd (hn₃.table.nodes.has ret hst₃.1)) ?_
  refine wp_mgrOp (exec_dropRead hlock) ⟨ret, map, rfl, ?_, ?_, fun a ha => ?_⟩
  · exact
      { inv := hx.inv.withLock m _
        made := hx.reads.made
        idle := by
          unfold Idle
          rw [withLock_mgr]
        others := fun k hk => by
          rw [withLock_mgr_of_ne _ _ _ hk, hx.others k hk, withLock_mgr_of_ne _ _ _ hk]
        stands := hst₅
        onward := (hon.trans hx.onward).trans hon₅
        frees := hx.frees
        freeId := hx.freeId }
  · exact fun id => (hd.means.extends hn₂ (hx₃.trans hx₄) id).imp_right
      fun ⟨f, b, h1, h2, h3⟩ => ⟨f, b, h1, h2, hon₅.stands m b f (hx.now hn₁).made h3 rfl⟩
  · -- the result is described by the last record
    have hne : a ≠ ret := by
      rintro rfl
      obtain ⟨l, hl, he⟩ := Meaning.after_last
        (F := .start (word (content x) 0) (word (content x) 1)) hr
      refine ha f hst₅ ?_
      rw [hl, values_append, ← hfr, he]
      exact List.mem_append_right _ List.mem_cons_self
    have h₂ := hd.refs a fun f' hf' => ha f' (hon₅.stands m a f' (hx.now hn₁).made
      (hn₃.stands hx₄.reads (hn₂.stands hx₃.reads hf')) rfl)
    calc ((w₃.recount ret (· + 1)).heap.get a).refCnt
        = (w₃.heap.get a).refCnt := recount_refs_of_ne w₃ ret (· + 1) hne
      _ = (w₂.heap.get a).refCnt - UInt64.ofNat ((map.entries.map Sigma.snd).count a) := hrefs₃ a
      _ = _ := by rw [h₂]; rfl

/-- The same, as a run. -/
theorem run_deserialize (hR : Delivers R content) (hn : Now g m w) (hl : w.Idle m) {x : σ}
    (hleg : Legible debug g.numVars (content x)) (hf : Describes (content x) f) (t n : Nat) :
    (∃ h w' x', run (execRead R m t) (deserialize debug g n) (w, x) = .ok (.ok h, w', x') ∧
      ReadBack m t w w' h f ∧ ∃ map,
        Means (Meaning.after (.start (word (content x) 0) (word (content x) 1))
          (body ((content x).drop 16))) m w' map ∧
        Dropped (.start (word (content x) 0) (word (content x) 1)) (body ((content x).drop 16)) m w
          w' map) ∨
    run (execRead R m t) (deserialize debug g n) (w, x) = .error .spin ∧ ¬ (content x).length < n := by
  have h := wp_run (fun _ => trivial) (fun _ _ _ _ _ => trivial) (wp_deserialize (t := t) (n := n)
    hR hn hl hleg hf (Classical.em ((content x).length < n)).symm)
  rcases h with ⟨_, ⟨w', x'⟩, hrun, ⟨h, map, rfl, hback, h1, h2⟩, -⟩ | ⟨e, _, hrun, ⟨rfl, hs⟩, -⟩
  · exact Or.inl ⟨h, w', x', hrun, hback, map, h1, h2⟩
  · exact Or.inr ⟨hrun, hs⟩

/-- **A stream without a header** is refused, and nothing has changed. -/
theorem run_deserialize_short (hR : Delivers R content) (hl : w.Idle m) {x : σ}
    (hlen : (content x).length < 16) (debug : Bool) (g : Consts) (t n : Nat) :
    ∃ e x', run (execRead R m t) (deserialize debug g n) (w, x) = .ok (.error e, w, x') := by
  obtain ⟨e, x', hr⟩ := hR.short 16 x hlen
  refine ⟨e, x', ?_⟩
  have hread : execRead R m t (.mgr .read) (w, x) = .ok ((), w.withLock m ⟨[t], none⟩, x) := by
    simp only [execRead, exec_read hl]
  have hwin : execRead R m t (.readExact 16) (w.withLock m ⟨[t], none⟩, x) =
      .ok (.error e, w.withLock m ⟨[t], none⟩, x') := by
    simp only [execRead, hr]
  have hdrop : execRead R m t (.mgr .dropRead) (w.withLock m ⟨[t], none⟩, x') = .ok ((), w, x') := by
    have hlock : ((w.withLock m ⟨[t], none⟩).mgr m).rwLock = ⟨[t], none⟩ := by rw [withLock_mgr]
    have hback : (w.withLock m ⟨[t], none⟩).withLock m ⟨[], none⟩ = w := by
      rw [withLock_withLock]
      unfold Idle at hl
      rw [← hl, withLock_self]
    simp only [execRead, exec_dropRead hlock, hback]
  exact (run_step_ok hread).trans ((run_step_ok hwin).trans (run_step_ok hdrop))

/-- Thread `t` reads from `R`, and may stop in any way. -/
def trying (R : IoRead σ ε) (m t : Nat) : Logic (readOps ε) (World × σ) :=
  .alone (execRead R m t) (fun _ _ => True) fun _ _ => True

theorem wp_trying {p : Prog (readOps ε) α} {Q : α → World × σ → Prop} {y : World × σ}
    (h : wp (decoding R m t True) p Q y) : wp (trying R m t) p Q y :=
  wp_weaken (L := decoding R m t True) (M := trying R m t) rfl (fun _ _ h => h) (fun _ _ h => h)
    (fun _ _ h => h) (fun _ _ _ => trivial) (fun _ h => h) h

/-- The read guard and the header. -/
theorem wp_header (hR : Delivers R content) (hl : w.Idle m) {x : σ} (hlen : 16 ≤ (content x).length)
    {k : Except ε (List UInt8) → Prog (readOps ε) α} {Q : α → World × σ → Prop}
    (h : ∀ x', content x' = (content x).drop 16 → wp (trying R m t)
      (k (.ok ((content x).take 16))) Q (w.withLock m ⟨[t], none⟩, x')) :
    wp (trying R m t) (do
      let _ : Unit ← (step .read).lift (besideReader ε)
      let header ← readExact 16
      k header) Q (w, x) := by
  unfold trying at h ⊢
  have hlock : execRead R m t (.mgr .read) (w, x) = .ok ((), w.withLock m ⟨[t], none⟩, x) := by
    simp only [execRead, exec_read hl]
  refine wp_answer hlock trivial ?_
  obtain ⟨x', hr, hx'⟩ := hR.read 16 x hlen
  have hread : execRead R m t (.readExact 16) (w.withLock m ⟨[t], none⟩, x) =
      .ok (.ok ((content x).take 16), w.withLock m ⟨[t], none⟩, x') := by
    simp only [execRead, hr]
  rintro _ rfl
  exact Logic.Does.of_ok trivial hread fun _ => ⟨trivial, h x' hx'⟩

/-- Once the header is there, `deserialize` does not refuse. -/
theorem run_deserialize_accepts (hR : Delivers R content) (hl : w.Idle m) {x : σ}
    (hlen : 16 ≤ (content x).length) (debug : Bool) (g : Consts) (t n : Nat) {e : ε} {y : World × σ} :
    run (execRead R m t) (deserialize debug g n) (w, x) ≠ .ok (.error e, y) := by
  intro hrun
  have hok : wp (trying R m t) (deserialize debug g n) (fun r _ => ∃ h, r = .ok h) (w, x) := by
    unfold deserialize
    refine wp_header hR hl hlen fun x' _ => ?_
    -- whatever follows, the answer is `Ok`
    refine wp_seq (wp_trivial _ _) ?_
    rintro ⟨map, ret⟩ y₁ -
    refine wp_seq (wp_trivial _ _) fun _ y₂ _ => ?_
    refine wp_seq (wp_trivial _ _) fun _ y₃ _ => ?_
    exact wp_seq (wp_trivial _ _) fun _ y₄ _ => ⟨ret, rfl⟩
  have hres := wp_run (fun _ => trivial) (fun _ _ _ _ _ => trivial) hok
  rcases hres with ⟨_, _, h, ⟨_, rfl⟩, -⟩ | ⟨_, _, h, -, -⟩
  · cases hrun.symm.trans h
  · cases hrun.symm.trans h

/-- **A stream without a record** is not answered: the null pointer is dereferenced. -/
theorem run_deserialize_empty (hR : Delivers R content) (hn : Now g m w) (hl : w.Idle m) {x : σ}
    (hlen : 16 ≤ (content x).length) (hbody : (content x).length < 48) (debug : Bool) (t n : Nat) :
    ∃ e, run (execRead R m t) (deserialize debug g n) (w, x) = .error e := by
  have hn₁ : Now g m (w.withLock m ⟨[t], none⟩) :=
    ⟨hn.inv.withLock m _, hn.made, by rw [withLock_consts, hn.consts]⟩
  have hbad : wp (trying R m t) (deserialize debug g n) (fun _ _ => False) (w, x) := by
    unfold deserialize
    refine wp_header hR hl hlen fun x₁ hx₁ => ?_
    have hnil : body (content x₁) = [] := body_short (by
      rw [hx₁, List.length_drop]
      omega)
    refine wp_seq (wp_trying (wp_readNodes hR n _ _ _ 0 x₁ hn₁ (means_start hn₁ _ _)
      (hnil ▸ trivial) (Or.inl trivial))) ?_
    rintro ⟨map, ret⟩ ⟨w₂, x₂⟩ hd
    have hx₂ : Extends m t (w.withLock m ⟨[t], none⟩) w₂ := hd.ext
    obtain rfl : ret = 0 := hd.none hnil
    refine wp_seq (wp_trying (wp_derefAll _ w₂ (hx₂.now hn₁) fun b hb => ?_)) ?_
    · obtain ⟨_, _, -, -, h⟩ := hd.means.mem_values hb
      exact h.1
    rintro _ _ ⟨w₃, rfl, -, -⟩
    rintro _ rfl
    refine Logic.Does.of_error (e := .fault) trivial ?_ trivial
    have h0 : (w₃.store m).heap.cell 0 = none := (w₃.store m).heap.null_free
    show execRead R m t (.mgr (.acc (.fetchAdd 0))) (w₃, x₂) = _
    simp only [execRead, exec, Store.exec, Store.edit, h0]
    rfl
  have hres := wp_run (fun _ => trivial) (fun _ _ _ _ _ => trivial) hbad
  rcases hres with ⟨_, _, -, h, -⟩ | ⟨e, _, h, -, -⟩
  · exact h.elim
  · exact ⟨e, h⟩

end

end Tobdd.Manager
