import Tobdd.Decode

/-!
# What serialize writes

`records`: one record for each visit to an inner node, the children's before the node's own.
`serialize` writes the header and these (`wp_serialize`).  Read in turn, each record names
children that are known by then, for the functions they stand for (`records_readable`).

    stream_legible, stream_describes: what was written for an inner node can be read, and its
                                      last record describes the function of the node
-/

namespace Tobdd.Manager

open Resume Diagram World

/-! ## The stream -/

def header (g : Consts) : List UInt8 := toBeBytes (addr g.falseId) ++ toBeBytes (addr g.trueId)

/-- The record of one node. -/
def recordAt (h : Heap) (a : Bdd) : Record :=
  ⟨addr a, (h.get a).level, addr (h.get a).low, addr (h.get a).high⟩

/-- The inner nodes that are visited from `a`, in the order in which they are left. -/
def visits (g : Consts) (h : Heap) : Nat → Bdd → List Bdd
  | 0, _ => []
  | n + 1, a =>
    if a = g.trueId ∨ a = g.falseId then []
    else visits g h n (h.get a).low ++ visits g h n (h.get a).high ++ [a]

/-- The records of the node `a`, in the order they are written. -/
def records (g : Consts) (h : Heap) (n : Nat) (a : Bdd) : List Record :=
  (visits g h n a).map (recordAt h)

/-- The bytes that stand for the node `a`. -/
def stream (g : Consts) (h : Heap) (n : Nat) (a : Bdd) : List UInt8 :=
  header g ++ (records g h n a).flatMap Record.bytes

/-- The visits from `a` are not more than `n` deep. -/
def Within (g : Consts) (h : Heap) : Nat → Bdd → Prop
  | 0, _ => False
  | n + 1, a => ¬ (a = g.trueId ∨ a = g.falseId) →
    Within g h n (h.get a).low ∧ Within g h n (h.get a).high

section
variable {σ ε α : Type} {g : Consts} {m t : Nat} {tol : Prop} {w w' : World} {a : Bdd} {f : BoolFn}

theorem visits_const (h : Heap) (n : Nat) (ha : a = g.trueId ∨ a = g.falseId) :
    visits g h n a = [] := by
  cases n with
  | zero => rfl
  | succ n =>
    unfold visits
    rw [if_pos ha]

theorem visits_inner (h : Heap) (n : Nat) (ha : ¬ (a = g.trueId ∨ a = g.falseId)) :
    visits g h (n + 1) a = visits g h n (h.get a).low ++ visits g h n (h.get a).high ++ [a] := by
  rw [visits, if_neg ha]

/-- An inner node and its children. -/
theorem Now.children (hn : Now g m w) (ha : (w.store m).Live a) (h : ¬ (a = g.trueId ∨ a = g.falseId)) :
    ((w.store m).Live (w.heap.get a).low ∧ g.rank w.heap (w.heap.get a).low < g.rank w.heap a) ∧
    ((w.store m).Live (w.heap.get a).high ∧ g.rank w.heap (w.heap.get a).high < g.rank w.heap a) := by
  have ht := hn.table.nodes
  obtain ⟨hl, hh⟩ := ht.closed a ha ⟨ht.has a ha, not_or.mp h⟩
  exact ⟨ht.child ha (ht.has _ hl).ne_zero (Or.inl rfl), ht.child ha (ht.has _ hh).ne_zero (Or.inr rfl)⟩

/-- Levels go up, so there is an end. -/
theorem Now.within (hn : Now g m w) : ∀ n a, (w.store m).Live a → g.rank w.heap a < n →
    Within g w.heap n a := by
  intro n
  induction n with
  | zero => exact fun a _ hr => absurd hr (Nat.not_lt_zero _)
  | succ n ih =>
    intro a ha hr h
    obtain ⟨⟨hl, hrl⟩, hh, hrh⟩ := hn.children ha h
    exact ⟨ih _ hl (by omega), ih _ hh (by omega)⟩

/-! ## serialize -/

/-- Thread `t` writes to a vector. -/
def writing (ε : Type) (m t : Nat) (tol : Prop) : Logic (writeOps ε) (World × List UInt8) :=
  .alone (execWrite (vecWrite ε) m t) (fun _ _ => True) fun e _ => e = .spin ∧ tol

theorem wp_writeOp {o : WriteOp} {k : (writeOps ε).Res o → Prog (writeOps ε) α}
    {Q : α → World × List UInt8 → Prop} {r : (writeOps ε).Res o} {x x' : World × List UInt8}
    (he : execWrite (vecWrite ε) m t o x = .ok (r, x')) (h : wp (writing ε m t tol) (k r) Q x') :
    wp (writing ε m t tol) (.step o k) Q x := by
  unfold writing at h ⊢
  exact wp_answer he trivial h

theorem wp_write {k : Unit → Prog (writeOps ε) α} {Q : α → World × List UInt8 → Prop}
    {bytes out : List UInt8} (h : wp (writing ε m t tol) (k ()) Q (w, out ++ bytes)) :
    wp (writing ε m t tol) (writeUnwrap bytes >>= k) Q (w, out) :=
  wp_writeOp (o := .writeAll bytes) (r := .ok ()) rfl h

/-- A field of a node is read. -/
theorem wp_field {o : Access} {k : mem.Res o → Prog (writeOps ε) α}
    {Q : α → World × List UInt8 → Prop} {v : mem.Res o} {out : List UInt8}
    (he : Store.exec t o (w.store m) = .ok (v, w.store m))
    (h : wp (writing ε m t tol) (k v) Q (w, out)) :
    wp (writing ε m t tol) ((step (.acc o)).lift (besideWriter ε) >>= k) Q (w, out) := by
  refine wp_writeOp (o := .mgr (.acc o)) (r := v) ?_ h
  simp only [execWrite, exec, he, put_self]

/-- **`write_buffer_rec`.** -/
theorem wp_writeBufferRec (hn : Now g m w) : ∀ n a out, (w.store m).Live a →
    (tol ∨ Within g w.heap n a) → wp (writing ε m t tol) (writeBufferRec g n a)
      (fun _ x => Within g w.heap n a ∧
        x = (w, out ++ (records g w.heap n a).flatMap Record.bytes)) (w, out) := by
  intro n
  induction n with
  | zero =>
    rintro a out - hr x rfl
    exact Logic.Does.of_error trivial rfl ⟨rfl, hr.resolve_right id⟩
  | succ n ih =>
    intro a out ha hr
    unfold writeBufferRec
    refine wp_ite _ (fun h => ?_) fun h => ?_
    · refine ⟨fun hne => absurd h hne, ?_⟩
      unfold records
      rw [visits_const _ _ h]
      simp
    · obtain ⟨⟨hl, -⟩, hh, -⟩ := hn.children ha h
      have hhas := hn.table.nodes.has a ha
      have hlow : Store.exec t (.low a) (w.store m) = .ok ((w.heap.get a).low, w.store m) :=
        Store.exec_field hhas rfl
      have hhigh : Store.exec t (.high a) (w.store m) = .ok ((w.heap.get a).high, w.store m) :=
        Store.exec_field hhas rfl
      refine wp_field hlow (wp_seq (ih _ out hl (hr.imp_right fun hw => (hw h).1)) ?_)
      rintro _ _ ⟨hwl, rfl⟩
      refine wp_field hhigh (wp_seq (ih _ _ hh (hr.imp_right fun hw => (hw h).2)) ?_)
      rintro _ _ ⟨hwh, rfl⟩
      refine wp_write (wp_field (o := .level a) (v := (w.heap.get a).level) (Store.exec_field hhas rfl) ?_)
      refine wp_write (wp_field hlow (wp_write (wp_field hhigh (wp_write ?_))))
      refine ⟨fun _ => ⟨hwl, hwh⟩, ?_⟩
      unfold records
      rw [visits_inner _ _ h]
      simp only [List.map_append, List.map_singleton, List.flatMap_append, List.flatMap_singleton,
        recordAt, Record.bytes, List.append_assoc]

/-- **`serialize`**, to an empty vector. -/
theorem wp_serialize (ε : Type) (hn : Now g m w) (ha : (w.store m).Live a) {n : Nat}
    (hr : tol ∨ Within g w.heap n a) : wp (writing ε m t tol) (serialize g a n)
      (fun r x => Within g w.heap n a ∧ r = .ok () ∧ x = (w, stream g w.heap n a)) (w, []) := by
  unfold serialize
  refine wp_writeOp (o := .writeAll _) (r := .ok ()) rfl ?_
  refine wp_writeOp (o := .writeAll _) (r := .ok ()) rfl ?_
  show wp (writing ε m t tol) (writeBufferRec g n a >>= fun _ => _) _ (w, header g)
  refine wp_seq (wp_writeBufferRec hn n a _ ha hr) ?_
  rintro _ _ ⟨hw, rfl⟩
  exact wp_writeOp (o := .flush) (r := .ok ()) rfl ⟨hw, rfl, rfl⟩

/-- The same, as a run. -/
theorem run_serialize (hn : Now g m w) (ha : (w.store m).Live a) (ε : Type) (t n : Nat) :
    (run (execWrite (vecWrite ε) m t) (serialize g a n) (w, []) =
      .ok (.ok (), w, stream g w.heap n a) ∧ Within g w.heap n a) ∨
    run (execWrite (vecWrite ε) m t) (serialize g a n) (w, []) = .error .spin ∧
      ¬ g.numVars < n := by
  have h := wp_run (fun _ => trivial) (fun _ _ _ _ _ => trivial) (wp_serialize (t := t)
    (n := n) ε hn ha ((Classical.em (g.numVars < n)).symm.imp_right fun h =>
      hn.within n a ha (Nat.lt_of_le_of_lt (rank_le ..) h)))
  rcases h with ⟨_, _, hrun, ⟨hw, rfl, rfl⟩, -⟩ | ⟨e, _, hrun, ⟨rfl, hs⟩, -⟩
  · exact Or.inl ⟨hrun, hw⟩
  · exact Or.inr ⟨hrun, hs⟩

end

/-! ## What was written can be read -/

/-- Manager `m` in the world `w`, where the stream comes from. -/
structure Source (g : Consts) (m : Nat) (w : World) : Prop where
  now : Now g m w
  /-- addresses have 64 bits -/
  small : w.heap.brk ≤ 2 ^ 64

/-- What is known is the address of a node, for what the node stands for. -/
def Meaning.Right (F : Meaning) (m : Nat) (w : World) : Prop :=
  ∀ id f, F id = some f → ∃ a, w.Stands m a f ∧ addr a = id

section
variable {g : Consts} {m : Nat} {w : World} {a b : Bdd} {f : BoolFn} {F : Meaning}

theorem Source.addr_inj (hs : Source g m w) (ha : (w.store m).Live a) (hb : (w.store m).Live b)
    (h : addr a = addr b) : a = b := by
  have hlt : ∀ c, (w.store m).Live c → (addr c).toNat = c := fun c hc => by
    unfold addr
    rw [UInt64.toNat_ofNat']
    exact Nat.mod_eq_of_lt (Nat.lt_of_lt_of_le (hs.now.table.nodes.has c hc).lt_brk hs.small)
  rw [← hlt a ha, ← hlt b hb, h]

theorem Meaning.Right.eq (hs : Source g m w) (hF : F.Right m w) {f' : BoolFn} (ha : w.Stands m a f)
    (h : F (addr a) = some f') : f' = f := by
  obtain ⟨b, hb, he⟩ := hF _ _ h
  obtain rfl := hs.addr_inj hb.1 ha.1 he
  exact hs.now.functional hb ha

/-- **The records of a node**, in turn. -/
theorem records_readable (debug : Bool) (hs : Source g m w) : ∀ n a f (F : Meaning), Within g w.heap n a →
    w.Stands m a f → F.Right m w → F (addr g.trueId) ≠ none → F (addr g.falseId) ≠ none →
    Readable debug g.numVars F (records g w.heap n a) ∧ (F.after (records g w.heap n a)).Right m w ∧
    F.after (records g w.heap n a) (addr a) = some f ∧
    (∀ id, F id ≠ none → F.after (records g w.heap n a) id ≠ none) ∧
    ∀ v ∈ values F (records g w.heap n a), ∃ b f, v = some f ∧ w.Stands m b f ∧ b ≠ g.trueId ∧
      b ≠ g.falseId := by
  intro n
  induction n with
  | zero => exact fun a f F hw => hw.elim
  | succ n ih =>
    intro a f F hw ha hF hT hF'
    by_cases h : a = g.trueId ∨ a = g.falseId
    · have hnil : records g w.heap (n + 1) a = [] := by
        unfold records
        rw [visits_const _ _ h]
        rfl
      rw [hnil]
      refine ⟨trivial, hF, ?_, fun _ h => h, fun v hv => absurd hv List.not_mem_nil⟩
      have hne : F (addr a) ≠ none := h.elim (fun h => h ▸ hT) fun h => h ▸ hF'
      obtain ⟨f', hf'⟩ := Option.ne_none_iff_exists'.mp hne
      rw [← hF.eq hs ha hf']
      exact hf'
    · obtain ⟨hneT, hneF⟩ := not_or.mp h
      obtain ⟨f₀, f₁, hsp⟩ := hs.now.split ha hneT hneF
      obtain ⟨hwl, hwh⟩ := hw h
      have hcons : records g w.heap (n + 1) a = records g w.heap n (w.heap.get a).low ++
          records g w.heap n (w.heap.get a).high ++ [recordAt w.heap a] := by
        unfold records
        rw [visits_inner _ _ h, List.map_append, List.map_append, List.map_singleton]
      -- the low child, the high child, the node itself
      obtain ⟨hr₀, hR₀, hl₀, hk₀, hv₀⟩ := ih _ f₀ F hwl hsp.low hF hT hF'
      obtain ⟨hr₁, hR₁, hl₁, hk₁, hv₁⟩ := ih _ f₁ _ hwh hsp.high hR₀ (hk₀ _ hT) (hk₀ _ hF')
      generalize hG : (F.after (records g w.heap n (w.heap.get a).low)).after
        (records g w.heap n (w.heap.get a).high) = G at hR₁ hl₁ hk₁
      have hlow : G (addr (w.heap.get a).low) = some f₀ := by
        obtain ⟨f', hf'⟩ := Option.ne_none_iff_exists'.mp (hk₁ (addr (w.heap.get a).low) (by
          rw [hl₀]
          exact Option.some_ne_none _))
        rw [← hR₁.eq hs hsp.low hf']
        exact hf'
      have hval : (recordAt w.heap a).value G = some f := by
        rw [hsp.eq]
        exact Record.value_eq hlow hl₁
      have hafter : F.after (records g w.heap (n + 1) a) =
          Function.update G (addr a) (some f) := by
        rw [hcons, Meaning.after_append, Meaning.after_append, hG, ← hval]
        rfl
      rw [hafter, hcons]
      refine ⟨?_, fun id f' hid => ?_, Function.update_self .., fun id hid => ?_, fun v hv => ?_⟩
      · rw [readable_append, readable_append, Meaning.after_append, hG]
        exact ⟨⟨hr₀, hr₁⟩, ⟨fun _ => Nat.le_of_lt hsp.bound, f₀, f₁, hlow, hl₁,
          Or.inr ⟨hsp.bound, hsp.fromLow, hsp.fromHigh⟩⟩, trivial⟩
      · by_cases hida : id = addr a
        · subst hida
          rw [Function.update_self] at hid
          obtain rfl := Option.some.inj hid
          exact ⟨a, ha, rfl⟩
        · rw [Function.update_of_ne hida] at hid
          exact hR₁ id f' hid
      · by_cases hida : id = addr a
        · subst hida
          rw [Function.update_self]
          exact Option.some_ne_none _
        · rw [Function.update_of_ne hida]
          exact hk₁ id (hk₀ id hid)
      · rw [values_append, values_append, Meaning.after_append, hG] at hv
        rcases List.mem_append.mp hv with hv | hv
        · exact (List.mem_append.mp hv).elim (hv₀ v) (hv₁ v)
        · obtain rfl := List.mem_singleton.mp hv
          exact ⟨a, f, hval, ha, hneT, hneF⟩

theorem start_right (hs : Source g m w) :
    (Meaning.start (addr g.falseId) (addr g.trueId)).Right m w := by
  intro id f hid
  unfold Meaning.start at hid
  by_cases h1 : id = addr g.trueId
  · subst h1
    rw [Function.update_self] at hid
    obtain rfl := Option.some.inj hid
    exact ⟨g.trueId, hs.now.top, rfl⟩
  · rw [Function.update_of_ne h1] at hid
    by_cases h2 : id = addr g.falseId
    · subst h2
      rw [Function.update_self] at hid
      obtain rfl := Option.some.inj hid
      exact ⟨g.falseId, hs.now.bot, rfl⟩
    · rw [Function.update_of_ne h2] at hid
      cases hid

theorem start_known (falseId trueId : UInt64) : Meaning.start falseId trueId trueId ≠ none ∧
    Meaning.start falseId trueId falseId ≠ none := by
  unfold Meaning.start
  constructor
  · rw [Function.update_self]
    exact Option.some_ne_none _
  · by_cases h : falseId = trueId
    · rw [h, Function.update_self]
      exact Option.some_ne_none _
    · rw [Function.update_of_ne h, Function.update_self]
      exact Option.some_ne_none _

/-! ### The stream as bytes -/

theorem header_length (g : Consts) : (header g).length = 16 := by
  unfold header
  rw [List.length_append, toBeBytes_length, toBeBytes_length]

theorem header_word (g : Consts) (l : List UInt8) : word (header g ++ l) 0 = addr g.falseId ∧
    word (header g ++ l) 1 = addr g.trueId := by
  unfold header
  rw [List.append_assoc, word_succ]
  exact ⟨word_zero .., word_zero ..⟩

theorem stream_body (g : Consts) (h : Heap) (n : Nat) (a : Bdd) :
    body ((stream g h n a).drop 16) = records g h n a := by
  unfold stream
  rw [List.drop_left' (header_length g), ← List.append_nil (List.flatMap _ _)]
  exact body_records _ [] (by decide)

variable {n : Nat}

/-- **What was written can be read.** -/
theorem stream_legible (debug : Bool) (hs : Source g m w) (hw : Within g w.heap n a)
    (ha : w.Stands m a f) : Legible debug g.numVars (stream g w.heap n a) := by
  obtain ⟨h0, h1⟩ := header_word g ((records g w.heap n a).flatMap Record.bytes)
  refine ⟨?_, ?_⟩
  · unfold stream
    rw [List.length_append, header_length]
    exact Nat.le_add_right _ _
  · rw [stream_body]
    unfold stream
    rw [h0, h1]
    exact (records_readable debug hs n a f _ hw ha (start_right hs) (start_known ..).1
      (start_known ..).2).1

/-- The last record is the node's own. -/
theorem records_last (h : Heap) (hw : Within g h n a) (hT : a ≠ g.trueId) (hF : a ≠ g.falseId) :
    (records g h n a).getLast? = some (recordAt h a) := by
  cases n with
  | zero => exact hw.elim
  | succ n =>
    unfold records
    rw [visits_inner _ _ (not_or.mpr ⟨hT, hF⟩), List.map_append, List.map_singleton]
    exact List.getLast?_concat ..

/-- **The last record describes the function of the node.** -/
theorem stream_describes (hs : Source g m w) (hw : Within g w.heap n a) (ha : w.Stands m a f)
    (hT : a ≠ g.trueId) (hF : a ≠ g.falseId) : Describes (stream g w.heap n a) f := by
  obtain ⟨h0, h1⟩ := header_word g ((records g w.heap n a).flatMap Record.bytes)
  refine ⟨recordAt w.heap a, ?_, ?_⟩
  · rw [stream_body]
    exact records_last _ hw hT hF
  · rw [stream_body]
    unfold stream
    rw [h0, h1]
    exact (records_readable false hs n a f _ hw ha (start_right hs) (start_known ..).1
      (start_known ..).2).2.2.1

/-- A constant has no records. -/
theorem stream_const (h : Heap) (ha : a = g.trueId ∨ a = g.falseId) :
    stream g h n a = header g := by
  unfold stream records
  rw [visits_const _ _ ha]
  exact List.append_nil _

end

end Tobdd.Manager
