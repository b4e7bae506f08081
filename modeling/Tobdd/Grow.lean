import Tobdd.Insert
import Tobdd.Tidy

/-!
# Growth

`grow` takes the nodes one by one out of the old chains and puts each at its place in the
chains of an array with twice as many heads.  The new array is not the table's until the
end; `grown s nb e` is the store as if it were.

    wp_grow: the table has the same nodes, each once, in the bucket of its hash under the
             new mask, in the order of their keys
-/

namespace Tobdd.Store

open Resume Linked

/-- The store with another array of heads. -/
def grown (s : Store) (nb : Slice Bdd) (e : Nat) : Store :=
  { s with set := { s.set with buckets := nb, sizeExp := e } }

/-- The nodes `done` of the table `b` hang on the new array `nb`; the other links, those of
`X` left out, are the old ones. -/
structure Moving (b : Store) (nb : Slice Bdd) (done X : List Bdd) (s : Store) : Prop where
  table : (s.grown nb (b.set.sizeExp + 1)).Table
  live : ∀ a, (s.grown nb (b.set.sizeExp + 1)).Live a ↔ a ∈ done
  old : ∀ a ∈ done, b.Live a
  set : s.set = b.set
  len : nb.len = rangeI32 (b.set.sizeExp + 1)
  brk : s.heap.brk = b.heap.brk
  has : ∀ a, s.heap.Has a ↔ b.heap.Has a
  node : ∀ a, (b.heap.get a).Alike (s.heap.get a)
  next : ∀ a, a ∉ done → a ∉ X → (s.heap.get a).next = (b.heap.get a).next

variable {b s s' : Store} {nb : Slice Bdd} {done X : List Bdd} {t : Nat} {tol bad : Prop} {i : Nat}
  {k : Key} {a : Bdd} {l₁ l₂ : List Bdd}

theorem Moving.chain_drops (h : Moving b nb done X s) (hd : Drops s s') :
    (s'.grown nb (b.set.sizeExp + 1)).Table ∧ ∀ i, i < nb.len →
      (s'.grown nb (b.set.sizeExp + 1)).chain i = (s.grown nb (b.set.sizeExp + 1)).chain i :=
  h.table.congr (u := s'.grown nb (b.set.sizeExp + 1)) rfl rfl fun a ha =>
    ⟨(hd.has a).mpr (h.table.has ha), hd.node a⟩

theorem Moving.drops (h : Moving b nb done X s) (hd : Drops s s') : Moving b nb done X s' := by
  obtain ⟨h1, h2⟩ := h.chain_drops hd
  exact
    { table := h1
      live := fun a => (live_congr (s := s.grown nb (b.set.sizeExp + 1))
        (u := s'.grown nb (b.set.sizeExp + 1)) rfl h2 a).trans (h.live a)
      old := h.old
      set := hd.set.trans h.set
      len := h.len
      brk := hd.brk.trans h.brk
      has := fun a => (hd.has a).trans (h.has a)
      node := fun a => (h.node a).trans (hd.node a).alike
      next := fun a ha hx => (hd.node a).next.trans (h.next a ha hx) }

/-! ## Where a node belongs -/

/-- `scan_new` stops between `l₁` and `l₂`. -/
structure Between (u : Store) (i : Nat) (k : Key) (l₁ l₂ : List Bdd) : Prop where
  split : u.chain i = l₁ ++ l₂
  before : ∀ a ∈ l₁, u.key a < k
  after : ∀ a ∈ l₂, k < u.key a

/-- What the place behind a part of a new chain holds. -/
theorem Moving.load (h : Moving b nb done X s) (hi : i < nb.len)
    (hsplit : (s.grown nb (b.set.sizeExp + 1)).chain i = l₁ ++ l₂) :
    (s.grown nb (b.set.sizeExp + 1)).ld (endPlace Place.next (.head i) l₁) = l₂.headD 0 := by
  have hseg := h.table.chains.seg i hi
  rw [hsplit] at hseg
  rw [ld_eq]
  refine hseg.load.trans ?_
  cases l₂ <;> rfl

theorem Moving.key_eq (h : Moving b nb done X s) (a : Bdd) :
    (s.grown nb (b.set.sizeExp + 1)).key a = b.key a := (h.node a).key

theorem wp_scanNew (hi : i < nb.len) (hk : ∀ a ∈ done, b.key a ≠ k) :
    ∀ n l₁ l₂ s, Moving b nb done [] s → (s.grown nb (b.set.sizeExp + 1)).chain i = l₁ ++ l₂ →
      (∀ a ∈ l₁, b.key a < k) → (tol ∨ l₂.length < n) →
      wp (collecting b.Live t tol bad)
        (LockFreeSet.scanNew nb k n (endPlace Place.next (.head i) l₁) (l₂.headD 0))
        (fun r s' => Moving b nb done [] s' ∧ ∃ l₁' l₂',
          Between (s'.grown nb (b.set.sizeExp + 1)) i k l₁' l₂' ∧
          r = (endPlace Place.next (.head i) l₁', l₂'.headD 0)) s := by
  intro n
  induction n with
  | zero => exact fun l₁ l₂ s _ _ _ hn => wp_spinLoop (hn.resolve_right (Nat.not_lt_zero _))
  | succ n ih =>
    intro l₁ l₂ s hs hsplit hl hn
    cases l₂ with
    | nil =>
      refine ⟨hs, l₁, [], ⟨hsplit, fun a ha => ?_, fun a ha => absurd ha List.not_mem_nil⟩, rfl⟩
      rw [hs.key_eq]
      exact hl a ha
    | cons a l₂ =>
      -- what is known before each access
      let I : Store → Prop := fun s => Moving b nb done [] s ∧
        (s.grown nb (b.set.sizeExp + 1)).chain i = l₁ ++ a :: l₂
      have hI : ∀ s s', I s → Drops s s' → I s' := fun s s' h hd =>
        ⟨h.1.drops hd, ((h.1.chain_drops hd).2 i hi).trans h.2⟩
      have hmem : ∀ {s}, I s → (s.grown nb (b.set.sizeExp + 1)).Live a := fun h =>
        ⟨i, hi, by rw [h.2]; simp⟩
      have hhas : ∀ {s}, I s → s.heap.Has a := fun h => h.1.table.has (hmem h)
      have had : a ∈ done := (hs.live a).mp (hmem ⟨hs, hsplit⟩)
      rw [List.headD_cons]
      refine wp_ite _ (fun h0 => absurd h0 (hhas ⟨hs, hsplit⟩).ne_zero) fun _ => ?_
      refine wp_read (o := .key a) I hI ⟨hs, hsplit⟩ (b.key a)
        (fun s' hs' => exec_field (hhas hs') (hs'.1.key_eq a)) fun s₁ hs1 => ?_
      refine wp_ite _ (fun hgt => ?_) fun hgt => ?_
      · have hlt : k < b.key a := cmp_eq_gt_iff _ _ |>.mp hgt
        refine ⟨hs1.1, l₁, a :: l₂, ⟨hs1.2, fun c hc => ?_, fun c hc => ?_⟩, rfl⟩
        · rw [hs1.1.key_eq]
          exact hl c hc
        · have hp := hs1.1.table.sorted i hi
          rw [hs1.2] at hp
          rcases List.mem_cons.mp hc with rfl | hc
          · rw [hs1.1.key_eq]
            exact hlt
          · refine lt_trans hlt ?_
            rw [← hs1.1.key_eq a]
            exact (List.pairwise_cons.mp (List.pairwise_append.mp hp).2.1).1 c hc
      · have hlt : b.key a < k := by
          refine lt_of_le_of_ne (not_lt.mp fun h => hgt ((cmp_eq_gt_iff _ _).mpr h)) (hk a had)
        refine wp_read (o := .load (.next a)) I hI hs1 (l₂.headD 0)
          (fun s' hs' => exec_load_eq (missing_next (hhas hs')) ?_) fun s₂ hs2 => ?_
        · have := hs'.1.load hi (hs'.2.trans (List.append_assoc l₁ [a] l₂).symm)
          rw [endPlace_concat] at this
          exact this
        · have := ih (l₁ ++ [a]) l₂ s₂ hs2.1 (by rw [hs2.2]; simp) (fun c hc => ?_)
            (hn.imp_right fun h => by simpa using h)
          · rw [endPlace_concat] at this
            exact this
          · rcases List.mem_append.mp hc with hc | hc
            · exact hl c hc
            · exact List.mem_singleton.mp hc ▸ hlt

/-! ## Moving one node -/

/-- The link of a node that is not yet on the new chains is written. -/
theorem Moving.unhook (h : Moving b nb done [] s) (ha : b.Live a) (hd : a ∉ done) (c : Bdd) :
    Moving b nb done [a] (s.put c (.next a)) ∧ Tidies b.Live s (s.put c (.next a)) ∧
      ∀ j, j < nb.len → ((s.put c (.next a)).grown nb (b.set.sizeExp + 1)).chain j =
        (s.grown nb (b.set.sizeExp + 1)).chain j := by
  have hoff : ∀ x, x ≠ a → (s.put c (.next a)).heap.cell x = s.heap.cell x := fun x hx =>
    put_cell_of_ne s c _ fun he => hx (by injection he with he; exact he.symm)
  have hget : ∀ x, (s.heap.get x).Relinked ((s.put c (.next a)).heap.get x) := put_get s c _
  have hcell : ∀ x, (s.grown nb (b.set.sizeExp + 1)).Live x →
      (s.put c (.next a)).heap.cell x = s.heap.cell x := fun x hx =>
    hoff x fun hxa => hd (hxa ▸ (h.live x).mp hx)
  obtain ⟨ht, hch⟩ := h.table.congr (u := (s.put c (.next a)).grown nb (b.set.sizeExp + 1)) rfl rfl
    fun x hx => by
      show (∃ n, (s.put c (.next a)).heap.cell x = some n) ∧
        (s.heap.get x).Recounted ((s.put c (.next a)).heap.get x)
      unfold Heap.get
      rw [hcell x hx]
      exact ⟨h.table.has hx, .refl _⟩
  refine ⟨⟨ht, fun x => ?_, h.old, h.set, h.len, h.brk, fun x => (put_has ..).trans (h.has x),
    fun x => (h.node x).trans (hget x).alike, fun x hx hxa => ?_⟩, ?_, hch⟩
  · exact (live_congr (s := s.grown nb (b.set.sizeExp + 1))
      (u := (s.put c (.next a)).grown nb (b.set.sizeExp + 1)) rfl hch x).trans (h.live x)
  · have hxa' : x ≠ a := fun he => hxa (he ▸ List.mem_singleton.mpr rfl)
    rw [← h.next x hx List.not_mem_nil]
    unfold Heap.get
    rw [hoff x hxa']
  · exact .of_has (fun x => put_has ..) (fun x _ => ⟨(hget x).same, (hget x).refCnt⟩)
      (fun x hx => hoff x fun he => hx (he ▸ ha)) rfl rfl rfl

/-- The new array and the store after the place `q` has got the node `a`. -/
def hooked (s : Store) (nb : Slice Bdd) (a : Bdd) : Place → Slice Bdd × Store
  | .head i => (nb.set i a, s)
  | .next c => (nb, s.put a (.next c))

theorem hooked_grown (s : Store) (nb : Slice Bdd) (a : Bdd) (q : Place) (e : Nat) :
    (hooked s nb a q).2.grown (hooked s nb a q).1 e = (s.grown nb e).put a q := by
  cases q <;> rfl

/-- The node `a`, whose link is set, is hung behind `l₁`. -/
theorem Moving.hook (hb : b.Table) (h : Moving b nb done [a] s) (ha : b.Live a) (hd : a ∉ done)
    (hi : i < nb.len) (hbt : Between (s.grown nb (b.set.sizeExp + 1)) i (b.key a) l₁ l₂)
    (hnext : (s.heap.get a).next = l₂.headD 0)
    (hidx : maskIdx (b.heap.get a).hash (b.set.sizeExp + 1) = i) :
    Moving b (hooked s nb a (endPlace Place.next (.head i) l₁)).1 (done ++ [a]) []
      (hooked s nb a (endPlace Place.next (.head i) l₁)).2 ∧
    Tidies b.Live s (hooked s nb a (endPlace Place.next (.head i) l₁)).2 := by
  have hkey : (s.grown nb (b.set.sizeExp + 1)).key a = b.key a := h.key_eq a
  have hhome : (b.heap.get a).HashOk := by
    obtain ⟨j, hj, haj⟩ := ha
    exact (hb.home j hj a haj).1
  obtain ⟨ht, hch⟩ := h.table.insert hi hbt.split ((h.has a).mpr (hb.has ha))
    (fun hl => hd ((h.live a).mp hl)) (hnext.trans (h.load hi hbt.split).symm)
    ((h.node a).hashOk hhome) (by rw [← hidx, ← (h.node a).hash]; rfl)
    (fun c hc => by rw [hkey]; exact hbt.before c hc) fun c hc => by rw [hkey]; exact hbt.after c hc
  have hlive := live_insert (put_len _ _ _) hi hbt.split hch
  rw [← hooked_grown] at ht
  simp only [← hooked_grown] at hlive
  -- the place is in the new array or in a node that hangs on it
  have hplace : endPlace Place.next (.head i) l₁ = .head i ∨
      ∃ c ∈ done, endPlace Place.next (.head i) l₁ = .next c := by
    rcases endPlace_cases Place.next (.head i) l₁ with ⟨-, h'⟩ | ⟨c, hc, h'⟩
    · exact Or.inl h'
    · refine Or.inr ⟨c, (h.live c).mp ⟨i, hi, ?_⟩, h'⟩
      rw [hbt.split]
      exact List.mem_append_left _ hc
  have hlive' : ∀ x, ((hooked s nb a (endPlace Place.next (.head i) l₁)).2.grown
      (hooked s nb a (endPlace Place.next (.head i) l₁)).1 (b.set.sizeExp + 1)).Live x ↔
        x ∈ done ++ [a] := fun x => by
    rw [hlive x, h.live x, List.mem_append, List.mem_singleton]
  have hold : ∀ x ∈ done ++ [a], b.Live x := fun x hx => by
    rcases List.mem_append.mp hx with hx | hx
    · exact h.old x hx
    · exact List.mem_singleton.mp hx ▸ ha
  clear hlive hch
  rcases hplace with hq | ⟨c, hc, hq⟩
  · rw [hq] at ht hlive' ⊢
    refine ⟨⟨ht, hlive', hold, h.set, h.len, h.brk, h.has, h.node, fun x hx _ => ?_⟩, .refl _⟩
    refine h.next x (fun hxd => hx (List.mem_append_left _ hxd)) fun hxa => hx ?_
    exact List.mem_append_right _ hxa
  · rw [hq] at ht hlive' ⊢
    have hget : ∀ x, (s.heap.get x).Relinked ((s.put a (.next c)).heap.get x) := put_get s a _
    have hoff : ∀ x, x ≠ c → (s.put a (.next c)).heap.cell x = s.heap.cell x := fun x hx =>
      put_cell_of_ne s a _ fun he => hx (by injection he with he; exact he.symm)
    refine ⟨⟨ht, hlive', hold, h.set, h.len, h.brk, fun x => (put_has ..).trans (h.has x),
      fun x => (h.node x).trans (hget x).alike, fun x hx _ => ?_⟩, ?_⟩
    · have hxc : x ≠ c := fun he => hx (he ▸ List.mem_append_left _ hc)
      rw [← h.next x (fun hxd => hx (List.mem_append_left _ hxd)) fun hxa =>
        hx (List.mem_append_right _ hxa)]
      show ((s.put a (.next c)).heap.get x).next = _
      unfold Heap.get
      rw [hoff x hxc]
    · exact .of_has (fun x => put_has ..) (fun x _ => ⟨(hget x).same, (hget x).refCnt⟩)
        (fun x hx => hoff x fun he => hx (he ▸ h.old c hc)) rfl rfl rfl

/-! ## Moving the chains -/

theorem wp_storeNew (hb : b.Table) (h : Moving b nb done [a] s) (ha : b.Live a) (hd : a ∉ done)
    (hi : i < nb.len) (hbt : Between (s.grown nb (b.set.sizeExp + 1)) i (b.key a) l₁ l₂)
    (hnext : (s.heap.get a).next = l₂.headD 0)
    (hidx : maskIdx (b.heap.get a).hash (b.set.sizeExp + 1) = i) :
    wp (collecting b.Live t tol bad)
      (LockFreeSet.storeNew nb a (endPlace Place.next (.head i) l₁))
      (fun nb' s' => Moving b nb' (done ++ [a]) [] s') s := by
  rcases hq : endPlace Place.next (.head i) l₁ with j | c
  · have := (h.hook hb ha hd hi hbt hnext hidx).1
    rw [hq] at this
    exact this
  · -- others may drop references before the link is written
    let I : Store → Prop := fun s => Moving b nb done [a] s ∧
      Between (s.grown nb (b.set.sizeExp + 1)) i (b.key a) l₁ l₂ ∧
      (s.heap.get a).next = l₂.headD 0
    have hI : ∀ s s', I s → Drops s s' → I s' := fun s s' ⟨h1, h2, h3⟩ hdr => by
      have hkey : ∀ x, (s'.grown nb (b.set.sizeExp + 1)).key x =
          (s.grown nb (b.set.sizeExp + 1)).key x := fun x => (hdr.node x).key
      refine ⟨h1.drops hdr, ⟨((h1.chain_drops hdr).2 i hi).trans h2.split, fun x hx => ?_,
        fun x hx => ?_⟩, (hdr.node a).next.trans h3⟩
      · rw [hkey]
        exact h2.before x hx
      · rw [hkey]
        exact h2.after x hx
    refine wp_access (o := .store (.next c) a) I hI ⟨h, hbt, hnext⟩ () fun s' ⟨h1, h2, h3⟩ => ?_
    obtain ⟨h4, h5⟩ := h1.hook hb ha hd hi h2 h3 hidx
    have hmiss := h1.table.chains.missing_end (l := l₁) hi fun x hx => by
      rw [h2.split]
      exact List.mem_append_left _ hx
    rw [hq] at h4 h5 hmiss
    exact ⟨_, exec_store hmiss, h5, h4⟩

theorem wp_moveChain (hb : b.Table)
    (hroom : rangeI32 (b.set.sizeExp + 1) ≠ shl64 (b.set.sizeExp + 1) → bad) :
    ∀ n l q nb done s, Moving b nb done [] s → Seg Place.next b.ld q l 0 →
      (∀ a ∈ l, b.Live a ∧ a ∉ done) → l.Nodup → (tol ∨ l.length + b.heap.brk < n) →
      wp (collecting b.Live t tol bad)
        (LockFreeSet.moveChain (b.set.sizeExp + 1) n (b.ld q) nb)
        (fun nb' s' => Moving b nb' (done ++ l) [] s') s := by
  intro n
  induction n with
  | zero => exact fun l q nb done s _ _ _ _ hn => wp_spinLoop (hn.resolve_right (Nat.not_lt_zero _))
  | succ n ih =>
    intro l q nb done s hs hseg hl hnd hn
    have hstable : ∀ {nb done X} (s s' : Store), Moving b nb done X s → Drops s s' →
        Moving b nb done X s' := fun s s' h hd => h.drops hd
    cases l with
    | nil =>
      have hz : b.ld q = 0 := hseg
      rw [hz, List.append_nil]
      exact hs
    | cons a l =>
      obtain ⟨ha, hseg⟩ := hseg
      obtain ⟨hla, hda⟩ := hl a List.mem_cons_self
      obtain ⟨hal, hnd⟩ := List.nodup_cons.mp hnd
      have hn' : tol ∨ l.length + b.heap.brk < n := hn.imp_right fun h => by
        rw [List.length_cons] at h
        omega
      have hhas : ∀ {nb X s}, Moving b nb done X s → s.heap.Has a := fun h =>
        (h.has a).mpr (hb.has hla)
      rw [ha]
      unfold LockFreeSet.moveChain
      rw [if_neg (hhas hs).ne_zero]
      refine wp_read (o := .load (.next a)) (Moving b nb done []) hstable hs (b.ld (.next a))
        (fun s' hs' => exec_load_eq (missing_next (hhas hs')) (hs'.next a hda List.not_mem_nil))
        fun s₁ hs1 => ?_
      refine wp_read (o := .hash a) (Moving b nb done []) hstable hs1 (b.heap.get a).hash
        (fun s' hs' => exec_field (hhas hs') (hs'.node a).hash) fun s₂ hs2 => ?_
      refine wp_ite _ (fun hle => ?_) fun hlt => ?_
      · -- the index is in bounds, unless the array is shorter than the mask assumes
        refine fun s' _ => Logic.Does.of_error trivial rfl (Or.inr ⟨rfl, hroom fun he => ?_⟩)
        have := maskIdx_lt (b.heap.get a).hash (b.set.sizeExp + 1)
        rw [hs2.len, he] at hle
        omega
      generalize hi : maskIdx (b.heap.get a).hash (b.set.sizeExp + 1) = i at *
      have hib : i < nb.len := by omega
      show wp _ (Prog.bind (.ret (nb.get i)) _) _ _
      refine wp_read (o := .key a) (Moving b nb done []) hstable hs2 (b.key a)
        (fun s' hs' => exec_field (hhas hs') (hs'.node a).key) fun s₃ hs3 => ?_
      have hhead : nb.get i = ((s₃.grown nb (b.set.sizeExp + 1)).chain i).headD 0 :=
        hs3.load hib (List.nil_append _).symm
      have hlen := hs3.table.length_le hib
      rw [hhead]
      refine wp_seq (wp_scanNew (i := i) hib (fun c hc hk => hda ?_) n [] _ s₃ hs3 rfl
        (fun c hc => absurd hc List.not_mem_nil) (hn'.imp_right fun h => ?_)) ?_
      · exact hb.unique (hs3.old c hc) hla hk ▸ hc
      · refine Nat.lt_of_le_of_lt hlen ?_
        show s₃.heap.brk < n
        rw [hs3.brk]
        omega
      rintro ⟨prev, scan⟩ s₄ ⟨hs4, l₁, l₂, hbt4, hr⟩
      injection hr with hprev hscan
      subst hprev hscan
      let I : Store → Prop := fun s => Moving b nb done [] s ∧
        Between (s.grown nb (b.set.sizeExp + 1)) i (b.key a) l₁ l₂
      have hI : ∀ s s', I s → Drops s s' → I s' := fun s s' ⟨h1, h2⟩ hdr => by
        have hkey : ∀ x, (s'.grown nb (b.set.sizeExp + 1)).key x =
            (s.grown nb (b.set.sizeExp + 1)).key x := fun x => (hdr.node x).key
        refine ⟨h1.drops hdr, ((h1.chain_drops hdr).2 i hib).trans h2.split, fun x hx => ?_,
          fun x hx => ?_⟩
        · rw [hkey]
          exact h2.before x hx
        · rw [hkey]
          exact h2.after x hx
      refine wp_access (o := .store (.next a) (l₂.headD 0)) I hI ⟨hs4, hbt4⟩ ()
        fun s₅ ⟨hs5, hbt5⟩ => ?_
      obtain ⟨hs6, ht6, hch6⟩ := hs5.unhook hla hda (l₂.headD 0)
      refine ⟨_, exec_store (missing_next (hhas hs5)), ht6, ?_⟩
      have hkey6 : ∀ x, ((s₅.put (l₂.headD 0) (.next a)).grown nb (b.set.sizeExp + 1)).key x =
          (s₅.grown nb (b.set.sizeExp + 1)).key x := fun x => put_key s₅ _ _ x
      refine wp_seq (wp_storeNew hb hs6 hla hda hib ⟨(hch6 i hib).trans hbt5.split, fun x hx => ?_,
        fun x hx => ?_⟩ ?_ hi) fun nb' s₇ hs7 => ?_
      · rw [hkey6]
        exact hbt5.before x hx
      · rw [hkey6]
        exact hbt5.after x hx
      · exact put_ld_self (q := .next a) (missing_next (hhas hs5))
      · have := ih l (.next a) nb' (done ++ [a]) s₇ hs7 hseg (fun c hc => ⟨(hl c
          (List.mem_cons_of_mem _ hc)).1, fun hcd => ?_⟩) hnd hn'
        · rwa [List.append_assoc] at this
        · rcases List.mem_append.mp hcd with hcd | hcd
          · exact (hl c (List.mem_cons_of_mem _ hc)).2 hcd
          · exact hal (List.mem_singleton.mp hcd ▸ hc)

/-! ## grow -/

/-- The table `b` with twice as many buckets. -/
structure Grown (b s : Store) : Prop where
  inv : s.Inv
  owed : s.set.owed = []
  len : s.set.buckets.len = rangeI32 (b.set.sizeExp + 1)
  sizeExp : s.set.sizeExp = b.set.sizeExp + 1
  numEntry : s.set.numEntry = b.set.numEntry
  live : ∀ a, s.Live a ↔ b.Live a
  brk : s.heap.brk = b.heap.brk
  has : ∀ a, s.heap.Has a ↔ b.heap.Has a
  node : ∀ a, (b.heap.get a).Alike (s.heap.get a)

theorem Moving.start (s : Store) :
    Moving s (Slice.replicate (rangeI32 (s.set.sizeExp + 1)) 0) [] [] s := by
  have hc : Chains (Slice.replicate (rangeI32 (s.set.sizeExp + 1)) 0) s.heap fun _ => [] :=
    ⟨fun _ _ => rfl, fun i _ a ha => absurd ha List.not_mem_nil,
      fun i j _ _ a ha => absurd ha List.not_mem_nil⟩
  refine ⟨Table.of_chains (s := s.grown _ _) hc (fun _ _ => .nil)
    fun i _ a ha => absurd ha List.not_mem_nil, fun a => ⟨?_, fun ha => absurd ha List.not_mem_nil⟩,
    fun a ha => absurd ha List.not_mem_nil, rfl, rfl, rfl, fun _ => Iff.rfl, fun _ => .refl _,
    fun _ _ _ => rfl⟩
  rintro ⟨i, hi, ha⟩
  have hnil := chain_eq (s := s.grown _ (s.set.sizeExp + 1)) hc hi
  exact hnil ▸ ha

/-- **`grow`.** -/
theorem wp_grow (hb : b.Inv) (howed : b.set.owed = [])
    (hlen : b.set.buckets.len ≤ shl64 b.set.sizeExp) (hbad : ¬ b.Sized → bad)
    (hroom : rangeI32 (b.set.sizeExp + 1) ≠ shl64 (b.set.sizeExp + 1) → bad) {n : Nat}
    (hn : tol ∨ 2 * b.heap.brk < n) :
    wp (collecting b.Live t tol bad) (LockFreeSet.grow n) (fun _ s => Grown b s) b := by
  have ht := hb.table
  have hstable : ∀ {nb done X} (s s' : Store), Moving b nb done X s → Drops s s' →
      Moving b nb done X s' := fun s s' h hd => h.drops hd
  unfold LockFreeSet.grow
  refine wp_read (o := .sizeExp) (Moving b _ [] []) hstable (Moving.start b) b.set.sizeExp
    (fun s hs => by rw [← hs.set]; rfl) fun s₁ hs1 => ?_
  refine wp_read (o := .sizeExp) (Moving b _ [] []) hstable hs1 b.set.sizeExp
    (fun s hs => by rw [← hs.set]; rfl) fun s₂ hs2 => ?_
  refine wp_seq (wp_forRange (I := fun i nb s =>
    Moving b nb ((List.range i).flatMap b.chain) [] s ∧ i ≤ b.set.buckets.len) ⟨hs2, Nat.zero_le _⟩
    ?_) ?_
  · rintro i nb s hi ⟨h, hle⟩
    by_cases hib : i < b.set.buckets.len
    · refine wp_read (o := .load (.head i)) (Moving b nb _ []) hstable h (b.ld (.head i))
        (fun s' hs' => exec_load_eq (missing_head (by rw [hs'.set]; exact hib))
          (by rw [ld, hs'.set]; rfl)) fun s' hs' => ?_
      refine wp_mono ?_ (wp_moveChain ht hroom n (b.chain i) (.head i) nb _ s' hs' ?_ ?_
        (ht.chains.nodup hib) (hn.imp_right fun h => ?_))
      · intro nb' s'' h'
        refine ⟨?_, hib⟩
        rw [List.range_succ, List.flatMap_append, List.flatMap_singleton]
        exact h'
      · rw [ld_eq]
        exact ht.chains.seg i hib
      · intro a ha
        refine ⟨⟨i, hib, ha⟩, fun hm => ?_⟩
        obtain ⟨j, hj, haj⟩ := List.mem_flatMap.mp hm
        have hji := List.mem_range.mp hj
        exact Nat.ne_of_lt hji (ht.chains.once j i (by omega) hib a haj ha)
      · have := ht.length_le hib
        omega
    · refine wp_badHead (by rw [h.set]; omega) (hbad fun hsz => ?_)
      unfold Sized at hsz
      omega
  · rintro nb s₃ ⟨hs3, hle⟩
    have hsz : b.Sized := Nat.le_antisymm hlen hle
    rw [← hsz] at hs3
    refine wp_access (o := .setBuckets nb) (Moving b nb b.nodes []) hstable hs3 () fun s₄ hs4 => ?_
    refine ⟨{ s₄ with set := { s₄.set with buckets := nb } }, rfl, .of_heap rfl rfl, ?_⟩
    let I : Store → Prop := fun s => s.set = { b.set with buckets := nb } ∧
      ∃ s', Moving b nb b.nodes [] s' ∧ s.heap = s'.heap ∧ s.freeId = s'.freeId
    have hI : ∀ s s', I s → Drops s s' → I s' := by
      rintro s s' ⟨hset, u, hu, h1, h2⟩ hd
      refine ⟨hd.set.trans hset, { s' with set := u.set }, hu.drops ?_, rfl, rfl⟩
      exact ⟨rfl, hd.freeId.trans h2, h1 ▸ hd.brk, h1 ▸ hd.frees, h1 ▸ hd.has, h1 ▸ hd.node,
        h1 ▸ hd.zero⟩
    refine wp_access (o := .setSizeExp (b.set.sizeExp + 1)) I hI
      ⟨by rw [← hs4.set], s₄, hs4, rfl, rfl⟩ () ?_
    rintro s₅ ⟨hset, u, hu, h1, h2⟩
    refine ⟨{ s₅ with set := { s₅.set with sizeExp := b.set.sizeExp + 1 } }, rfl,
      .of_heap rfl rfl, ?_⟩
    have hs5 : ({ s₅ with set := { s₅.set with sizeExp := b.set.sizeExp + 1 } } : Store) =
        u.grown nb (b.set.sizeExp + 1) := by
      unfold grown
      rw [hset, hu.set, h1, h2]
    show Grown b { s₅ with set := { s₅.set with sizeExp := b.set.sizeExp + 1 } }
    rw [hs5]
    have hlive : ∀ a, (u.grown nb (b.set.sizeExp + 1)).Live a ↔ b.Live a := fun a =>
      (hu.live a).trans mem_nodes
    refine ⟨⟨hu.table, ?_⟩, ?_, hu.len, rfl, ?_, hlive, hu.brk, hu.has, hu.node⟩
    · have hperm : (u.grown nb (b.set.sizeExp + 1)).nodes.Perm b.nodes :=
        (List.perm_ext_iff_of_nodup (nodes_nodup hu.table.chains) (nodes_nodup ht.chains)).mpr
          fun a => by rw [mem_nodes, mem_nodes, hlive]
      have hcount := hb.counted
      unfold Counted at hcount ⊢
      rw [hperm.length_eq]
      show u.set.numEntry + u.set.owed.length = _
      rw [hu.set, hcount]
    · show u.set.owed = []
      rw [hu.set, howed]
    · show u.set.numEntry = _
      rw [hu.set]

end Tobdd.Store
