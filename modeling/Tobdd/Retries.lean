import Tobdd.Lib.Trace
import Tobdd.Methods
import Tobdd.SetThreads

/-!
# How often an insert starts again

A call of `get_or_insert` starts again where its exchange fails.  The link it then tried to
change is the one it has loaded last, and links on the chains only change when somebody links
a node: so for each failure another call has linked a node into this bucket since that load.

    plays_getOrInsert: which link is loaded and exchanged, and when the rounds are used up
    ld_quiet, linked_new: a link on a chain changes only where a node is linked
    getOrInsert_retries: failures are no more than the nodes that others link into the bucket,
                         and a walk passes each node of the chain at most once
-/

namespace Tobdd.Store

open Resume Linked

/-! ## The links of a chain -/

/-- The place is a link of chain `i`. -/
def On (s : Store) (i : Nat) : Place → Prop
  | .head j => j = i
  | .next a => a ∈ s.chain i

section
variable {s s' : Store} {i u : Nat} {q : Place}

theorem On.split (h : s.On i q) :
    ∃ l₁ l₂, s.chain i = l₁ ++ l₂ ∧ endPlace Place.next (.head i) l₁ = q := by
  cases q with
  | head j =>
    obtain rfl : j = i := h
    exact ⟨[], s.chain j, rfl, rfl⟩
  | next a =>
    obtain ⟨l₁, l₂, hl⟩ := List.append_of_mem (show a ∈ s.chain i from h)
    refine ⟨l₁ ++ [a], l₂, ?_, endPlace_concat⟩
    rw [hl, List.append_assoc]
    rfl

theorem on_end {l : List Bdd} (h : ∀ a ∈ l, a ∈ s.chain i) :
    s.On i (endPlace Place.next (.head i) l) := by
  rcases endPlace_cases Place.next (.head i) l with ⟨-, he⟩ | ⟨a, ha, he⟩
  · rw [he]
    exact rfl
  · rw [he]
    exact h a ha

theorem On.grows (h : s.On i q) (hi : i < s.set.buckets.len) (hg : Grows s s') : s'.On i q := by
  cases q with
  | head j => exact h
  | next a => exact (hg.chain i hi).subset h

/-- A link holds null or the next node of its chain. -/
theorem On.ld (h : s.On i q) (ht : s.Table) (hi : i < s.set.buckets.len) :
    s.ld q = 0 ∨ s.ld q ∈ s.chain i ∧ ∀ b, q = .next b → s.key b < s.key (s.ld q) := by
  obtain ⟨l₁, l₂, hl, rfl⟩ := h.split
  have hseg := ht.chains.seg i hi
  have hsorted := ht.sorted i hi
  rw [hl] at hseg hsorted
  rw [ld_eq, hseg.load]
  cases l₂ with
  | nil => exact Or.inl rfl
  | cons c l =>
    right
    refine ⟨?_, fun b hb => ?_⟩
    · rw [hl]
      simp
    · rcases endPlace_cases Place.next (.head i) l₁ with ⟨-, he⟩ | ⟨a, ha, he⟩
      · rw [he] at hb
        cases hb
      · rw [he] at hb
        injection hb with hb
        subst hb
        exact (List.pairwise_append.mp hsorted).2.2 a ha c List.mem_cons_self

/-- The links of a chain that is as it was hold what they held. -/
theorem On.ld_eq (h : s.On i q) (ht : s.Table) (ht' : s'.Table) (hi : i < s.set.buckets.len)
    (hi' : i < s'.set.buckets.len) (hch : s'.chain i = s.chain i) : s'.ld q = s.ld q := by
  obtain ⟨l₁, l₂, hl, rfl⟩ := h.split
  have hseg := ht.chains.seg i hi
  have hseg' := ht'.chains.seg i hi'
  rw [hch, hl] at hseg'
  rw [hl] at hseg
  rw [Store.ld_eq, Store.ld_eq, hseg.load, hseg'.load]

/-- A node stays on its chain. -/
theorem Grows.mem_back (hg : Grows s s') (ht' : s'.Table) {a : Bdd} (ha : s.Live a)
    (hi : i < s.set.buckets.len) (h : a ∈ s'.chain i) : a ∈ s.chain i := by
  obtain ⟨j, hj, hja⟩ := ha
  have hj' := (hg.chain j hj).subset hja
  obtain rfl := ht'.chains.once j i (by rw [hg.len]; exact hj) (by rw [hg.len]; exact hi) a hj' h
  exact hja

theorem Grows.nodes_subset (hg : Grows s s') : s.nodes ⊆ s'.nodes := by
  intro a ha
  rw [mem_nodes] at ha ⊢
  exact hg.live ha

variable (h : s.Inv) (h' : s'.Inv) (hg : Grows s s')
include h h' hg

/-- Where no node came to the table, the chains are as they were. -/
theorem chain_same (hlen : s'.nodes.length = s.nodes.length) (hi : i < s.set.buckets.len) :
    s'.chain i = s.chain i := by
  have hperm : s.nodes.Perm s'.nodes :=
    ((nodes_nodup h.table.chains).subperm hg.nodes_subset).perm_of_length_le (by omega)
  refine ((hg.chain i hi).eq_of_length_le ?_).symm
  have hi' : i < s'.set.buckets.len := by
    rw [hg.len]
    exact hi
  refine ((h'.table.chains.nodup hi').subperm fun a ha => ?_).length_le
  have hlive : s.Live a := mem_nodes.mp (hperm.mem_iff.mpr (mem_nodes.mpr ⟨i, hi', ha⟩))
  exact hg.mem_back h'.table hlive hi ha

/-- A step that counts no node leaves the links alone. -/
theorem ld_quiet (hcount : s'.set.numEntry + s'.set.owed.length =
    s.set.numEntry + s.set.owed.length) (hi : i < s.set.buckets.len) (hq : s.On i q) :
    s'.ld q = s.ld q := by
  have hlen : s'.nodes.length = s.nodes.length := by
    have h1 := h.counted
    have h2 := h'.counted
    unfold Counted at h1 h2
    omega
  refine hq.ld_eq h.table h'.table hi ?_ (chain_same h h' hg hlen hi)
  rw [hg.len]
  exact hi

end

/-- An exchange that succeeds. -/
theorem exec_cas_true {s s' : Store} {u : Nat} {q : Place} {c x : Bdd}
    (hex : Store.exec u (.cas q c x) s = .ok (true, s')) :
    s.missing q = none ∧ s' = s.linkedBy u x q := by
  obtain ⟨hm, ⟨-, -, rfl⟩ | ⟨h0, -⟩⟩ := cas_ok hex
  · exact ⟨hm, rfl⟩
  · cases h0

/-- **An exchange that succeeds links a new node** into the chain of its place. -/
theorem linked_new {s s' : Store} {u : Nat} {q : Place} {c x : Bdd} (h : s.Inv) (h' : s'.Inv)
    (hg : Grows s s') (hex : Store.exec u (.cas q c x) s = .ok (true, s')) :
    ∃ j, j < s.set.buckets.len ∧ s.On j q ∧ x ∈ s'.chain j := by
  obtain ⟨hmiss, rfl⟩ := exec_cas_true hex
  have hlen : (s.linkedBy u x q).nodes.length = s.nodes.length + 1 := by
    have h1 := h.counted
    have h2 := h'.counted
    unfold Counted at h1 h2
    have h3 : (s.linkedBy u x q).set.numEntry = s.set.numEntry := put_numEntry ..
    have h4 : (s.linkedBy u x q).set.owed = u :: s.set.owed := by
      show u :: (s.put x q).set.owed = _
      rw [put_owed]
    rw [h3, h4, List.length_cons] at h2
    omega
  have hld : (s.linkedBy u x q).ld = (s.put x q).ld := by
    funext r
    cases r <;> rfl
  generalize s.linkedBy u x q = s₁ at *
  have hnd := nodes_nodup h.table.chains
  have hnd' := nodes_nodup h'.table.chains
  -- one node is new
  obtain ⟨a, ha', ha⟩ : ∃ a ∈ s₁.nodes, a ∉ s.nodes := by
    by_contra hno
    have hsub : s₁.nodes ⊆ s.nodes := fun a ha => by
      by_contra h0
      exact hno ⟨a, ha, h0⟩
    have := (hnd'.subperm hsub).length_le
    omega
  have hperm : (a :: s.nodes).Perm s₁.nodes := by
    refine ((List.nodup_cons.mpr ⟨ha, hnd⟩).subperm ?_).perm_of_length_le ?_
    · intro b hb
      rcases List.mem_cons.mp hb with rfl | hb
      · exact ha'
      · exact hg.nodes_subset hb
    · rw [hlen]
      rfl
  have hnew : ∀ b, s₁.Live b → s.Live b ∨ b = a := by
    intro b hb
    rcases List.mem_cons.mp (hperm.mem_iff.mpr (mem_nodes.mpr hb)) with rfl | hb
    · exact Or.inr rfl
    · exact Or.inl (mem_nodes.mp hb)
  obtain ⟨j, hj', hja⟩ := mem_nodes.mp ha'
  have hj : j < s.set.buckets.len := by
    rw [← hg.len]
    exact hj'
  -- the link that holds it was on the chain and held something else
  obtain ⟨l₁, l₂, hl⟩ := List.append_of_mem hja
  have hseg := h'.table.chains.seg j hj'
  have hndj := h'.table.chains.nodup hj'
  rw [hl] at hseg hndj
  have hlda : s₁.ld (endPlace Place.next (.head j) l₁) = a := by
    rw [ld_eq, hseg.load]
    rfl
  have hon : s.On j (endPlace Place.next (.head j) l₁) := by
    refine on_end fun b hb => ?_
    have hb' : b ∈ s₁.chain j := by
      rw [hl]
      exact List.mem_append_left _ hb
    refine hg.mem_back h'.table ((hnew b ⟨j, hj', hb'⟩).resolve_right ?_) hj hb'
    rintro rfl
    exact List.disjoint_of_nodup_append hndj hb List.mem_cons_self
  have hne : s.ld (endPlace Place.next (.head j) l₁) ≠ a := by
    intro he
    rcases hon.ld h.table hj with h0 | ⟨hm, -⟩
    · exact (h'.table.chains.has j hj' a hja).ne_zero (he ▸ h0)
    · exact ha (mem_nodes.mpr ⟨j, hj, he ▸ hm⟩)
  have hq : endPlace Place.next (.head j) l₁ = q := by
    by_contra hq
    rw [hld, put_ld_of_ne hq] at hlda
    exact hne hlda
  rw [hq] at hlda hon
  rw [hld, put_ld_self hmiss] at hlda
  subst hlda
  exact ⟨j, hj, hon, hja⟩

end Tobdd.Store

namespace Tobdd.SetThreads

open Resume Store Linked

/-! ## What one call has done -/

/-- The link that was loaded last, with what it held, if no exchange was tried since. -/
def pending : List (Answer mem) → Option (Place × Bdd)
  | [] => none
  | ⟨.load q, (a : Bdd)⟩ :: _ => some (q, a)
  | ⟨.cas _ _ _, _⟩ :: _ => none
  | _ :: h => pending h

/-- How often the exchange failed. -/
def failures : List (Answer mem) → Nat
  | [] => 0
  | ⟨.cas _ _ _, (ok : Bool)⟩ :: h => failures h + if ok then 0 else 1
  | _ :: h => failures h

/-- How many nodes the present walk has passed. -/
def passed : List (Answer mem) → Nat
  | [] => 0
  | ⟨.load (.head _), _⟩ :: _ => 0
  | ⟨.load (.next _), _⟩ :: h => passed h + 1
  | _ :: h => passed h

/-- How many accesses the call has made since the present walk began. -/
def walked : List (Answer mem) → Nat
  | [] => 0
  | ⟨.load (.head _), _⟩ :: _ => 0
  | _ :: h => walked h + 1

/-- What the accesses of `get_or_insert(p)`, with `n` rounds, have to do with those before. -/
def Seeking (p : Bdd) (n : Nat) (h : List (Answer mem)) (o : mem.Op) : Prop :=
  walked h ≤ 2 * passed h + 3 ∧
  match o with
  | .load (.head j) => ∃ (x : UInt64) (e : Nat), ⟨.hash p, x⟩ ∈ h ∧ ⟨.sizeExp, e⟩ ∈ h ∧
      j = maskIdx x e
  | .load (.next a) => a ≠ 0 ∧ ∃ q, pending h = some (q, a)
  | .cas q c _ => pending h = some (q, c)
  | .spinLoop => n ≤ failures h + passed h + 1
  | _ => True

/-- How many accesses that makes for one walk. -/
def Walked (h : List (Answer mem)) : Prop := walked h ≤ 2 * passed h + 4

theorem Walked.of_plays {α : Type} {p : Bdd} {n : Nat} {h : List (Answer mem)} :
    ∀ {x : Prog mem α}, plays (Seeking p n) x (fun _ => Walked) h → Walked h
  | .ret _, hx => hx
  | .step _ _, hx => le_trans hx.1.1 (Nat.le_succ _)

theorem plays_acc {α : Type} {J : List (Answer mem) → mem.Op → Prop} {o : Access}
    {k : mem.Res o → Prog mem α} {Q : α → List (Answer mem) → Prop} {h : List (Answer mem)}
    (ho : J h o) (hk : ∀ r, plays J (k r) Q (⟨o, r⟩ :: h)) : plays J (acc o >>= k) Q h := ⟨ho, hk⟩

section
variable {p : Bdd} {n : Nat} {x : UInt64} {e : Nat}

theorem plays_walk (key : Key) : ∀ m q c h, ⟨.hash p, x⟩ ∈ h → ⟨.sizeExp, e⟩ ∈ h →
    pending h = some (q, c) → n = failures h + passed h + 1 + m → walked h = 2 * passed h →
    plays (Seeking p n) (LockFreeSet.walk key m q c) (fun r h' => ⟨.hash p, x⟩ ∈ h' ∧
      ⟨.sizeExp, e⟩ ∈ h' ∧ failures h' = failures h ∧ walked h' ≤ 2 * passed h' + 1 ∧
      ∀ q c, r = .between q c → pending h' = some (q, c)) h := by
  intro m
  induction m with
  | zero =>
    intro q c h hx he hp hn hw
    refine ⟨⟨by omega, ?_⟩, fun r => r.elim⟩
    show n ≤ failures h + passed h + 1
    omega
  | succ m ih =>
    intro q c h hx he hp hn hw
    refine plays_ite _ (fun h0 => ?_) fun h0 => ?_
    · refine ⟨hx, he, rfl, by omega, ?_⟩
      rintro q' c' ⟨⟩
      exact hp
    · refine plays_acc ⟨by omega, trivial⟩ fun (key' : Key) => ?_
      have hx' : ⟨.hash p, x⟩ ∈ (⟨.key c, key'⟩ : Answer mem) :: h := List.mem_cons_of_mem _ hx
      have he' : ⟨.sizeExp, e⟩ ∈ (⟨.key c, key'⟩ : Answer mem) :: h := List.mem_cons_of_mem _ he
      have hw' : walked (⟨.key c, key'⟩ :: h) = 2 * passed (⟨.key c, key'⟩ :: h) + 1 := by
        show walked h + 1 = 2 * passed h + 1
        omega
      cases cmp key' key with
      | eq =>
        refine ⟨hx', he', rfl, by omega, ?_⟩
        rintro q' c' ⟨⟩
      | gt =>
        refine ⟨hx', he', rfl, by omega, ?_⟩
        rintro q' c' ⟨⟩
        exact hp
      | lt =>
        refine plays_acc ⟨by omega, h0, q, hp⟩ fun (next : Bdd) => ?_
        have hnext : pending (⟨.load (.next c), next⟩ :: ⟨.key c, key'⟩ :: h) =
            some (.next c, next) := rfl
        refine ih (.next c) next _ (List.mem_cons_of_mem _ hx') (List.mem_cons_of_mem _ he') hnext
          ?_ ?_
        · show n = failures h + (passed h + 1) + 1 + m
          omega
        · show walked h + 1 + 1 = 2 * (passed h + 1)
          omega

theorem plays_retry (key : Key) : ∀ m h, ⟨.hash p, x⟩ ∈ h → ⟨.sizeExp, e⟩ ∈ h →
    n = failures h + m → walked h ≤ 2 * passed h + 3 →
    plays (Seeking p n) (LockFreeSet.retry p key (.head (maskIdx x e)) m) (fun _ => Walked) h := by
  intro m
  induction m with
  | zero =>
    intro h hx he hn hw
    refine ⟨⟨hw, ?_⟩, fun r => r.elim⟩
    show n ≤ failures h + passed h + 1
    omega
  | succ m ih =>
    intro h hx he hn hw
    refine plays_acc ⟨hw, x, e, hx, he, rfl⟩ fun (curr : Bdd) => ?_
    refine plays_seq (plays_walk key m _ curr _ (List.mem_cons_of_mem _ hx)
      (List.mem_cons_of_mem _ he) rfl ?_ rfl) ?_
    · show n = failures h + 0 + 1 + m
      omega
    · rintro r h' ⟨hx', he', hf, hw', hr⟩
      have hf : failures h' = failures h := hf
      cases r with
      | equal c =>
        show walked h' ≤ 2 * passed h' + 4
        omega
      | between q c =>
        refine plays_acc ⟨by omega, trivial⟩ fun (_ : Unit) => ?_
        have hw₁ : walked (⟨.store (.next p) c, ()⟩ :: h') ≤
            2 * passed (⟨.store (.next p) c, ()⟩ :: h') + 2 := Nat.succ_le_succ hw'
        refine plays_acc ⟨Nat.le_succ_of_le hw₁, hr q c rfl⟩ fun (ok : Bool) => ?_
        have hw₂ : walked (⟨.cas q c p, ok⟩ :: ⟨.store (.next p) c, ()⟩ :: h') ≤
            2 * passed (⟨.cas q c p, ok⟩ :: ⟨.store (.next p) c, ()⟩ :: h') + 3 :=
          Nat.succ_le_succ hw₁
        refine plays_ite _ (fun hok => ?_) fun hok => ?_
        · exact ⟨⟨hw₂, trivial⟩, fun _ => Nat.succ_le_succ hw₂⟩
        · refine ih _ (by simp [hx']) (by simp [he']) ?_ hw₂
          have hok : ok = false := by simpa using hok
          subst hok
          show n = failures h' + 1 + m
          omega

/-- **`get_or_insert(p)`, whatever it is answered.** -/
theorem plays_getOrInsert (p : Bdd) (n : Nat) :
    plays (Seeking p n) (LockFreeSet.getOrInsert p n) (fun _ => Walked) [] := by
  refine plays_acc ⟨by simp [walked], trivial⟩ fun x => ?_
  refine plays_acc ⟨by simp [walked], trivial⟩ fun e => ?_
  refine plays_acc ⟨by simp [walked], trivial⟩ fun key => ?_
  exact plays_retry key n _ (by simp) (by simp) (by simp [failures]) (by simp [walked])

end

/-! ## What the others have done meanwhile -/

/-- The accesses of which `pending`, `failures` and `passed` take no notice. -/
def Plain : Access → Prop
  | .load _ | .cas _ _ _ => False
  | _ => True

theorem plain_cons {o : Access} (ho : Plain o) (r : mem.Res o) (h : List (Answer mem)) :
    pending (⟨o, r⟩ :: h) = pending h ∧ failures (⟨o, r⟩ :: h) = failures h ∧
      passed (⟨o, r⟩ :: h) = passed h := by
  cases o with
  | load _ | cas _ _ _ => exact ho.elim
  | _ => exact ⟨rfl, rfl, rfl⟩

/-- The exchange has linked a node that is on chain `i`. -/
def linksInto (i : Nat) (s : Store) : Answer mem → Bool
  | ⟨.cas _ _ x, (ok : Bool)⟩ => ok && decide (x ∈ s.chain i)
  | _ => false

/-- How many nodes others than `t` have linked into chain `i`. -/
def links (t i : Nat) (s : Store) (l : List (Nat × Answer mem)) : Nat :=
  l.countP fun e => decide (e.1 ≠ t) && linksInto i s e.2

/-- Thread `t` loads a link. -/
def loads (t : Nat) : Nat × Answer mem → Bool
  | (u, ⟨.load _, _⟩) => u == t
  | _ => false

/-- What was done since thread `t` last loaded a link. -/
def since (t : Nat) (l : List (Nat × Answer mem)) : List (Nat × Answer mem) :=
  l.takeWhile fun e => !loads t e

/-- What was done up to then. -/
def before (t : Nat) (l : List (Nat × Answer mem)) : List (Nat × Answer mem) :=
  l.dropWhile fun e => !loads t e

section
variable {t u i : Nat} {s : Store} {l : List (Nat × Answer mem)} {e : Nat × Answer mem}

theorem since_append {m : List (Nat × Answer mem)} (h : ∀ e ∈ m, loads t e = false) :
    since t (m ++ l) = m ++ since t l := by
  induction m with
  | nil => rfl
  | cons e m ih =>
    have he := h e List.mem_cons_self
    have hm := ih fun e' he' => h e' (List.mem_cons_of_mem _ he')
    simp only [since] at hm ⊢
    simp [he, hm]

theorem since_loads (he : e ∈ since t l) : loads t e = false := by
  have hall := List.all_takeWhile (l := l) (p := fun e => !loads t e)
  simpa using List.all_eq_true.mp hall e he

theorem before_append {m : List (Nat × Answer mem)} (h : ∀ e ∈ m, loads t e = false) :
    before t (m ++ l) = before t l := by
  induction m with
  | nil => rfl
  | cons e m ih =>
    have he := h e List.mem_cons_self
    have hm := ih fun e' he' => h e' (List.mem_cons_of_mem _ he')
    simp only [before] at hm ⊢
    simp [he, hm]

theorem before_load (h : loads t e = true) : before t (e :: l) = e :: l := by
  simp [before, h]

theorem loads_plain {o : Access} (ho : Plain o) (r : mem.Res o) : loads t (u, ⟨o, r⟩) = false := by
  cases o with
  | load _ => exact ho.elim
  | _ => rfl

theorem loads_other (h : u ≠ t) (a : Answer mem) : loads t (u, a) = false := by
  obtain ⟨o, r⟩ := a
  cases o with
  | load q => simp [loads, h]
  | _ => rfl

theorem links_append (m : List (Nat × Answer mem)) :
    links t i s (m ++ l) = links t i s m + links t i s l := List.countP_append ..

/-- The thread's own accesses do not count. -/
theorem links_own (a : Answer mem) : links t i s ((t, a) :: l) = links t i s l := by
  unfold links
  rw [List.countP_cons_of_neg]
  simp

/-- One of the others' links since the last load is not among those before. -/
theorem links_before_lt (he : e ∈ since t l) (hne : e.1 ≠ t) (hl : linksInto i s e.2 = true) :
    links t i s (before t l) < links t i s l := by
  have hsplit : l = since t l ++ before t l := (List.takeWhile_append_dropWhile ..).symm
  have hpos : 0 < (since t l).countP fun e => decide (e.1 ≠ t) && linksInto i s e.2 := by
    rw [List.countP_pos_iff]
    exact ⟨e, he, by simp [hne, hl]⟩
  unfold links
  conv_rhs => rw [hsplit, List.countP_append]
  omega

theorem failures_append (h' : List (Answer mem)) : ∀ h : List (Answer mem),
    failures (h ++ h') = failures h + failures h' := by
  intro h
  induction h with
  | nil => exact (Nat.zero_add _).symm
  | cons a h ih =>
    obtain ⟨o, r⟩ := a
    cases o with
    | cas q c x =>
      show failures (h ++ h') + _ = failures h + _ + failures h'
      omega
    | _ => exact ih

/-- Without failures no exchange has failed. -/
theorem not_failed {q : Place} {c x : Bdd} (h : failures (own t l) = 0) :
    (t, ⟨.cas q c x, false⟩) ∉ l := by
  intro hm
  obtain ⟨l₁, l₂, rfl⟩ := List.append_of_mem hm
  rw [own_append, own_self, failures_append] at h
  have : failures (⟨.cas q c x, false⟩ :: own t l₂) = failures (own t l₂) + 1 := rfl
  omega

/-- The link loaded last, where it was loaded. -/
theorem pending_since {q : Place} {c : Bdd} (h : pending (own t l) = some (q, c)) :
    ∃ l₂, l = since t l ++ (t, ⟨.load q, c⟩) :: l₂ := by
  induction l with
  | nil => cases h
  | cons e l ih =>
    obtain ⟨u, o, r⟩ := e
    -- another access, of whichever thread
    have hskip : loads t (u, ⟨o, r⟩) = false → pending (own t l) = some (q, c) →
        ∃ l₂, (u, ⟨o, r⟩) :: l = since t ((u, ⟨o, r⟩) :: l) ++ (t, ⟨.load q, c⟩) :: l₂ := by
      intro hl hp
      obtain ⟨l₂, hl₂⟩ := ih hp
      have hs : since t ((u, ⟨o, r⟩) :: l) = (u, ⟨o, r⟩) :: since t l :=
        since_append (m := [(u, ⟨o, r⟩)]) fun e he => by rw [List.mem_singleton.mp he]; exact hl
      refine ⟨l₂, ?_⟩
      rw [hs, List.cons_append, ← hl₂]
    by_cases hu : u = t
    · subst hu
      rw [own_self] at h
      cases o with
      | load q' =>
        obtain ⟨rfl, rfl⟩ := Prod.mk.inj (Option.some.inj h)
        refine ⟨l, ?_⟩
        simp [since, loads]
      | cas q' c' x => cases h
      | _ => exact hskip rfl h
    · rw [own_other hu] at h
      exact hskip (loads_other hu _) h

/-- For each exchange of thread `t` that failed, another thread had linked a node into chain `i`
since `t` last loaded a link, which was the one it tried to change. -/
def Blamed (t i : Nat) (s : Store) (l : List (Nat × Answer mem)) : Prop :=
  ∀ l₀ q c x l', l = l₀ ++ (t, ⟨.cas q c x, false⟩) :: l' →
    ∃ l₁ l₂, l' = l₁ ++ (t, ⟨.load q, c⟩) :: l₂ ∧ (∀ e ∈ l₁, loads t e = false) ∧
      ∃ e ∈ l₁, e.1 ≠ t ∧ linksInto i s e.2 = true

/-- Where no more exchanges of `t` failed. -/
theorem Blamed.append (h : Blamed t i s l) {m : List (Nat × Answer mem)} {s' : Store}
    (hf : failures (own t m) = 0)
    (hlinks : ∀ e ∈ l, linksInto i s e.2 = true → linksInto i s' e.2 = true) :
    Blamed t i s' (m ++ l) := by
  intro l₀ q c x l' hl
  -- the exchange is not one of `m`
  obtain ⟨l₀', rfl, hl'⟩ : ∃ l₀', l₀ = m ++ l₀' ∧ l = l₀' ++ (t, ⟨.cas q c x, false⟩) :: l' := by
    rcases List.append_eq_append_iff.mp hl with ⟨b, hb, hl'⟩ | ⟨b, hb, hl'⟩
    · exact ⟨b, hb, hl'⟩
    · cases b with
      | nil => exact ⟨[], by simpa using hb.symm, hl'.symm⟩
      | cons a b =>
        obtain ⟨rfl, -⟩ := List.cons.inj hl'
        have hm : (t, (⟨.cas q c x, false⟩ : Answer mem)) ∈ m := by
          rw [hb]
          simp
        exact absurd hm (not_failed hf)
  obtain ⟨l₁, l₂, rfl, hload, e, he, hne, hlink⟩ := h l₀' q c x l' hl'
  exact ⟨l₁, l₂, rfl, hload, e, he, hne, hlinks e (by rw [hl']; simp [he]) hlink⟩

end

/-- Where a call of thread `t` in bucket `i` is, after `l`. -/
structure Follows (t i : Nat) (l : List (Nat × Answer mem)) (s : Store) : Prop where
  inside : i < s.set.buckets.len
  /-- every node that was linked is in the table -/
  live : ∀ u q c x, (u, ⟨.cas q c x, true⟩) ∈ l → s.Live x
  /-- the link loaded last holds what it held, or else somebody has linked a node since -/
  place : ∀ q c, pending (own t l) = some (q, c) → s.On i q ∧
    (c = 0 ∨ c ∈ s.chain i ∧ ∀ b, q = .next b → s.key b < s.key c) ∧
    (s.ld q = c ∨ ∃ e ∈ since t l, e.1 ≠ t ∧ linksInto i s e.2 = true)
  /-- the walk goes up the chain -/
  trail : ∃ tr : List Bdd, tr.length = passed (own t l) ∧
    (tr.Pairwise fun a b => s.key a < s.key b) ∧ (∀ a ∈ tr, a ∈ s.chain i) ∧
    ∀ q c, pending (own t l) = some (q, c) → q = endPlace Place.next (.head i) tr
  count : failures (own t l) ≤ links t i s l
  blamed : Blamed t i s l
  owes : ∀ q c, pending (own t l) = some (q, c) → failures (own t l) ≤ links t i s (before t l)

section
variable {t u i : Nat} {s s' : Store} {l : List (Nat × Answer mem)}

theorem linksInto_grows (hs' : s'.Table) (hg : Grows s s') (hi : i < s.set.buckets.len)
    {a : Answer mem} (ha : ∀ q c x, a = ⟨.cas q c x, true⟩ → s.Live x) :
    linksInto i s' a = linksInto i s a := by
  obtain ⟨o, r⟩ := a
  cases o with
  | cas q c x =>
    have hr : r = true ∨ r = false := by
      cases (r : Bool) with
      | false => exact Or.inr rfl
      | true => exact Or.inl rfl
    rcases hr with rfl | rfl
    · have hx := ha q c x rfl
      have hiff : x ∈ s'.chain i ↔ x ∈ s.chain i :=
        ⟨hg.mem_back hs' hx hi, fun h => (hg.chain i hi).subset h⟩
      simp [linksInto, hiff]
    · rfl
  | _ => rfl

theorem links_grows (hs' : s'.Table) (hg : Grows s s') (hi : i < s.set.buckets.len)
    (hlive : ∀ u q c x, (u, ⟨.cas q c x, true⟩) ∈ l → s.Live x) :
    links t i s' l = links t i s l := by
  refine List.countP_congr fun e he => ?_
  rw [linksInto_grows hs' hg hi]
  rintro q c x hx
  exact hlive e.1 q c x (hx ▸ he)

/-- **Steps in which the call itself neither loads nor exchanges a link.** -/
theorem Follows.step (h : Follows t i l s) (hs' : s'.Table) (hg : Grows s s')
    {m : List (Nat × Answer mem)}
    (hp : ∀ q c, pending (own t (m ++ l)) = some (q, c) → pending (own t l) = some (q, c))
    (hf : failures (own t (m ++ l)) = failures (own t l))
    (hw : passed (own t (m ++ l)) = passed (own t l)) (hload : ∀ e ∈ m, loads t e = false)
    (hlive : ∀ u q c x, (u, ⟨.cas q c x, true⟩) ∈ m → s'.Live x)
    (hld : ∀ q c, pending (own t (m ++ l)) = some (q, c) → s.On i q →
      s'.ld q = s.ld q ∨ ∃ e ∈ m, e.1 ≠ t ∧ linksInto i s' e.2 = true) :
    Follows t i (m ++ l) s' := by
  have hi := h.inside
  have hkey : ∀ a ∈ s.chain i, s'.key a = s.key a := fun a ha => hg.key ⟨i, hi, ha⟩
  have hlinks : ∀ l', (∀ e ∈ l', e ∈ l) → links t i s' l' = links t i s l' := fun l' hl' =>
    links_grows hs' hg hi fun u q c x hm => h.live u q c x (hl' _ hm)
  have hsum : links t i s' (m ++ l) = links t i s' m + links t i s l := by
    rw [links_append, hlinks l fun _ he => he]
  constructor
  · rw [hg.len]
    exact hi
  · intro u q c x hm
    rcases List.mem_append.mp hm with hm | hm
    · exact hlive u q c x hm
    · exact hg.live (h.live u q c x hm)
  · intro q c hq
    obtain ⟨hon, hc, hor⟩ := h.place q c (hp q c hq)
    have hc' : c = 0 ∨ c ∈ s'.chain i ∧ ∀ b, q = .next b → s'.key b < s'.key c := by
      rcases hc with h0 | ⟨hm, hlt⟩
      · exact Or.inl h0
      · refine Or.inr ⟨(hg.chain i hi).subset hm, ?_⟩
        rintro b rfl
        rw [hkey b hon, hkey c hm]
        exact hlt b rfl
    refine ⟨hon.grows hi hg, hc', ?_⟩
    rw [since_append hload]
    rcases hld q c hq hon with hsame | ⟨e, he, hl⟩
    · rw [hsame]
      refine hor.imp_right ?_
      rintro ⟨e, he, hne, hl⟩
      refine ⟨e, List.mem_append_right _ he, hne, ?_⟩
      rw [linksInto_grows hs' hg hi]
      · exact hl
      · rintro q' c' x hx
        exact h.live e.1 q' c' x (hx ▸ (List.takeWhile_sublist _).subset he)
    · exact Or.inr ⟨e, List.mem_append_left _ he, hl⟩
  · obtain ⟨tr, h1, h2, h3, h4⟩ := h.trail
    rw [hw]
    refine ⟨tr, h1, h2.imp_of_mem fun {a b} ha hb hlt => ?_,
      fun a ha => (hg.chain i hi).subset (h3 a ha), fun q c hq => h4 q c (hp q c hq)⟩
    rw [hkey a (h3 a ha), hkey b (h3 b hb)]
    exact hlt
  · have := h.count
    omega
  · refine h.blamed.append ?_ fun e he hl => ?_
    · rw [own_append, failures_append] at hf
      omega
    · rw [linksInto_grows hs' hg hi]
      · exact hl
      · rintro q c x hx
        exact h.live e.1 q c x (hx ▸ he)
  · intro q c hq
    rw [hf, before_append hload, hlinks (before t l) fun _ he => (List.dropWhile_sublist _).subset he]
    exact h.owes q c (hp q c hq)

/-- Another thread links a node. -/
theorem Follows.linked (h : Follows t i l s) (hu : u ≠ t) {q : Place} {c x : Bdd} (hinv : s.Inv)
    (hinv' : s'.Inv) (hg : Grows s s') (hex : Store.exec u (.cas q c x) s = .ok (true, s')) :
    Follows t i ((u, ⟨.cas q c x, true⟩) :: l) s' := by
  obtain ⟨j, hj, hon, hx⟩ := linked_new hinv hinv' hg hex
  obtain ⟨-, hs'⟩ := exec_cas_true hex
  have hi := h.inside
  have hj' : j < s'.set.buckets.len := by
    rw [hg.len]
    exact hj
  have hown : own t ([(u, ⟨.cas q c x, true⟩)] ++ l) = own t l := own_other hu _ l
  refine h.step (m := [(u, ⟨.cas q c x, true⟩)]) hinv'.table hg (fun r d hr => ?_) ?_ ?_ ?_ ?_ ?_
  · rw [hown] at hr
    exact hr
  · rw [hown]
  · rw [hown]
  · intro e he
    rw [List.mem_singleton.mp he]
    exact loads_other hu _
  · intro v q' c' x' hm
    obtain ⟨-, he⟩ := Prod.mk.inj (List.mem_singleton.mp hm)
    injection he with he
    injection he with _ _ he
    rw [he]
    exact ⟨j, hj', hx⟩
  · intro r _ _ hr
    by_cases hrq : r = q
    · subst hrq
      right
      refine ⟨_, List.mem_singleton_self _, hu, ?_⟩
      -- one link, one chain
      have hij : j = i := by
        cases r with
        | head k =>
          have h1 : k = j := hon
          have h2 : k = i := hr
          omega
        | next a => exact hinv.table.chains.once j i hj hi a hon hr
      rw [← hij]
      simp [linksInto, hx]
    · left
      rw [hs']
      show (s.put x q).ld r = s.ld r
      exact put_ld_of_ne hrq

/-- The call loads a link. -/
theorem Follows.loaded (h : Follows t i l s) (hs : s.Table) {q : Place}
    (hq : q = .head i ∨ ∃ a q', q = .next a ∧ a ≠ 0 ∧ pending (own t l) = some (q', a)) :
    Follows t i ((t, ⟨.load q, s.ld q⟩) :: l) s := by
  have hi := h.inside
  have hload : loads t (t, (⟨.load q, s.ld q⟩ : Answer mem)) = true := by simp [loads]
  have hpend : ∀ r d, pending (own t ((t, ⟨.load q, s.ld q⟩) :: l)) = some (r, d) →
      r = q ∧ d = s.ld q := by
    intro r d hr
    rw [own_self] at hr
    obtain ⟨h1, h2⟩ := Prod.mk.inj (Option.some.inj hr)
    exact ⟨h1.symm, h2.symm⟩
  have hfail : failures (own t ((t, ⟨.load q, s.ld q⟩) :: l)) = failures (own t l) := by
    rw [own_self]
    rfl
  -- the link is one of the chain
  have hon : s.On i q := by
    rcases hq with rfl | ⟨a, q', rfl, h0, hp⟩
    · exact rfl
    · exact ((h.place q' a hp).2.1.resolve_left h0).1
  constructor
  · exact hi
  · intro u q' c x hm
    rcases List.mem_cons.mp hm with he | hm
    · obtain ⟨-, he⟩ := Prod.mk.inj he
      cases he
    · exact h.live u q' c x hm
  · intro r d hr
    obtain ⟨rfl, rfl⟩ := hpend r d hr
    exact ⟨hon, hon.ld hs hi, Or.inl rfl⟩
  · obtain ⟨tr, h1, h2, h3, h4⟩ := h.trail
    rcases hq with rfl | ⟨a, q', rfl, h0, hp⟩
    · refine ⟨[], ?_, .nil, fun a ha => absurd ha List.not_mem_nil, fun r d hr => ?_⟩
      · rw [own_self]
        rfl
      · exact (hpend r d hr).1
    · obtain ⟨hon', hc, -⟩ := h.place q' a hp
      obtain ⟨ha, hlt⟩ := hc.resolve_left h0
      refine ⟨tr ++ [a], ?_, ?_, fun b hb => ?_, fun r d hr => ?_⟩
      · rw [own_self, List.length_append, h1]
        rfl
      · refine List.pairwise_append.mpr ⟨h2, List.pairwise_singleton .., fun b hb c hc => ?_⟩
        rw [List.mem_singleton.mp hc]
        -- the last node passed has the link that held `a`
        rcases List.eq_nil_or_concat' tr with rfl | ⟨tr', d, rfl⟩
        · cases hb
        · have hd : q' = .next d := by
            rw [h4 q' a hp, endPlace_concat]
          have hda := hlt d hd
          rcases List.mem_append.mp hb with hb | hb
          · exact lt_trans ((List.pairwise_append.mp h2).2.2 b hb d (List.mem_singleton_self d)) hda
          · rw [List.mem_singleton.mp hb]
            exact hda
      · rcases List.mem_append.mp hb with hb | hb
        · exact h3 b hb
        · rw [List.mem_singleton.mp hb]
          exact ha
      · rw [endPlace_concat]
        exact (hpend r d hr).1
  · rw [hfail, links_own]
    exact h.count
  · exact h.blamed.append (m := [(t, ⟨.load q, s.ld q⟩)]) (by rw [own_self]; rfl) fun _ _ hl => hl
  · intro r d _
    rw [hfail, before_load hload, links_own]
    exact h.count

/-- **The exchange fails**: somebody has linked a node into the chain since the link was loaded. -/
theorem Follows.failed (h : Follows t i l s) {q : Place} {c x : Bdd}
    (hp : pending (own t l) = some (q, c)) (hld : s.ld q ≠ c) :
    Follows t i ((t, ⟨.cas q c x, false⟩) :: l) s := by
  obtain ⟨e, he, hne, hl⟩ := (h.place q c hp).2.2.resolve_left hld
  have hlt := links_before_lt he hne hl
  have howes := h.owes q c hp
  have hnone : pending (own t ((t, ⟨.cas q c x, false⟩) :: l)) = none := by
    rw [own_self]
    rfl
  constructor
  · exact h.inside
  · intro u q' c' x' hm
    rcases List.mem_cons.mp hm with he | hm
    · obtain ⟨-, he⟩ := Prod.mk.inj he
      cases he
    · exact h.live u q' c' x' hm
  · intro r d hr
    rw [hnone] at hr
    cases hr
  · obtain ⟨tr, h1, h2, h3, -⟩ := h.trail
    refine ⟨tr, ?_, h2, h3, fun r d hr => ?_⟩
    · rw [own_self]
      exact h1
    · rw [hnone] at hr
      cases hr
  · rw [own_self, links_own]
    show failures (own t l) + 1 ≤ _
    omega
  · intro l₀ q' c' x' l' hsplit
    cases l₀ with
    | nil =>
      -- the exchange that has just failed
      obtain ⟨he', rfl⟩ := List.cons.inj hsplit
      obtain ⟨-, he'⟩ := Prod.mk.inj he'
      cases he'
      obtain ⟨l₂, hl₂⟩ := pending_since hp
      exact ⟨since t l, l₂, hl₂, fun _ => since_loads, e, he, hne, hl⟩
    | cons a l₀ =>
      obtain ⟨-, hsplit⟩ := List.cons.inj hsplit
      exact h.blamed l₀ q' c' x' l' hsplit
  · intro r d hr
    rw [hnone] at hr
    cases hr

/-- The exchange succeeds. -/
theorem Follows.won (h : Follows t i l s) {q : Place} {c x : Bdd} (hinv : s.Inv) (hinv' : s'.Inv)
    (hg : Grows s s') (hex : Store.exec t (.cas q c x) s = .ok (true, s')) :
    Follows t i ((t, ⟨.cas q c x, true⟩) :: l) s' := by
  obtain ⟨j, hj, -, hx⟩ := linked_new hinv hinv' hg hex
  have hnone : pending (own t ([(t, ⟨.cas q c x, true⟩)] ++ l)) = none := by
    rw [List.singleton_append, own_self]
    rfl
  refine h.step (m := [(t, ⟨.cas q c x, true⟩)]) hinv'.table hg (fun r d hr => ?_) ?_ ?_ ?_ ?_ ?_
  · rw [hnone] at hr
    cases hr
  · rw [List.singleton_append, own_self]
    rfl
  · rw [List.singleton_append, own_self]
    rfl
  · intro e he
    rw [List.mem_singleton.mp he]
    rfl
  · intro v q' c' x' hm
    obtain ⟨-, he⟩ := Prod.mk.inj (List.mem_singleton.mp hm)
    injection he with he
    injection he with _ _ he
    rw [he]
    exact ⟨j, by rw [hg.len]; exact hj, hx⟩
  · intro r d hr
    rw [hnone] at hr
    cases hr

/-- A step that leaves the links alone, in which the call neither loads nor exchanges one. -/
theorem Follows.quiet (h : Follows t i l s) (hs' : s'.Table) (hg : Grows s s') {o : Access}
    {r : mem.Res o} (ho : Plain o ∨ u ≠ t)
    (hcas : ∀ q c x, (⟨o, r⟩ : Answer mem) ≠ ⟨.cas q c x, true⟩)
    (hld : ∀ q, s.On i q → s'.ld q = s.ld q) : Follows t i ((u, ⟨o, r⟩) :: l) s' := by
  have hsame : pending (own t ((u, ⟨o, r⟩) :: l)) = pending (own t l) ∧
      failures (own t ((u, ⟨o, r⟩) :: l)) = failures (own t l) ∧
      passed (own t ((u, ⟨o, r⟩) :: l)) = passed (own t l) := by
    by_cases hu : u = t
    · subst hu
      rw [own_self]
      exact plain_cons (ho.resolve_right fun hne => hne rfl) r _
    · rw [own_other hu]
      exact ⟨rfl, rfl, rfl⟩
  refine h.step (m := [(u, ⟨o, r⟩)]) hs' hg (fun q c hq => ?_) hsame.2.1 hsame.2.2 ?_ ?_ ?_
  · exact hsame.1.symm.trans hq
  · intro e he
    rw [List.mem_singleton.mp he]
    exact ho.elim (fun ho => loads_plain ho r) fun hu => loads_other hu _
  · intro v q c x hm
    obtain ⟨-, he⟩ := Prod.mk.inj (List.mem_singleton.mp hm)
    exact absurd he.symm (hcas q c x)
  · intro q _ _ hq
    exact Or.inl (hld q hq)

end

/-! ## One call among the others -/

section
variable {o : Access} {u : Nat} {s s' : Store} {r : mem.Res o}

/-- What the accesses of `get_or_insert` leave as it is. -/
theorem exec_seeks (ho : o.Seeks) (hex : Store.exec u o s = .ok (r, s')) :
    (∀ a, (s.heap.get a).Relinked (s'.heap.get a)) ∧ s'.set.sizeExp = s.set.sizeExp := by
  cases o with
  | load q =>
    obtain ⟨-, -, rfl⟩ := load_ok hex
    exact ⟨fun _ => .refl _, rfl⟩
  | store q b =>
    obtain rfl := store_ok hex
    exact ⟨put_get s b q, put_sizeExp s b q⟩
  | cas q c x =>
    obtain ⟨-, ⟨-, -, rfl⟩ | ⟨-, -, rfl⟩⟩ := cas_ok hex
    · exact ⟨put_get s x q, put_sizeExp s x q⟩
    · exact ⟨fun _ => .refl _, rfl⟩
  | key a | hash a =>
    obtain ⟨-, rfl⟩ := look_ok hex
    exact ⟨fun _ => .refl _, rfl⟩
  | sizeExp | addEntry =>
    obtain ⟨-, rfl⟩ := Prod.mk.inj (Except.ok.inj hex)
    exact ⟨fun _ => .refl _, rfl⟩
  | spinLoop => cases hex
  | _ => exact ho.elim

/-- An access that neither loads nor exchanges a link changes none on a chain. -/
theorem exec_plain {i : Nat} (ho : o.Seeks) (hp : Plain o) (h : s.Inv) (h' : s'.Inv)
    (hg : Grows s s') (hi : i < s.set.buckets.len) (hex : Store.exec u o s = .ok (r, s')) {q : Place}
    (hq : s.On i q) : s'.ld q = s.ld q := by
  cases o with
  | load q | cas q c x => exact hp.elim
  | store p b =>
    obtain rfl := store_ok hex
    exact ld_quiet h h' hg (by simp) hi hq
  | key a | hash a =>
    obtain ⟨-, rfl⟩ := look_ok hex
    rfl
  | sizeExp | addEntry =>
    obtain ⟨-, rfl⟩ := Prod.mk.inj (Except.ok.inj hex)
    cases q <;> rfl
  | spinLoop => cases hex
  | _ => exact ho.elim

end

/-- What the call of `p` was told, in a table where `p` belongs into bucket `i`. -/
structure Told (p : Bdd) (i : Nat) (h : List (Answer mem)) (s : Store) : Prop where
  idx : maskIdx (s.heap.get p).hash s.set.sizeExp = i
  hash : ∀ x, ⟨.hash p, x⟩ ∈ h → x = (s.heap.get p).hash
  sizeExp : ∀ e, ⟨.sizeExp, e⟩ ∈ h → e = s.set.sizeExp

/-- A call whose bucket is not there has loaded no link. -/
structure Astray (i : Nat) (h : List (Answer mem)) (s : Store) : Prop where
  outside : ¬ i < s.set.buckets.len
  pending : pending h = none
  failures : failures h = 0
  passed : passed h = 0

/-- Where the call of thread `t` with its node `p` is, after `l`. -/
structure Among (t : Nat) (p : Bdd) (i : Nat) (l : List (Nat × Answer mem)) (w : Shared) :
    Prop where
  call : (t, p) ∈ w.calls
  told : Told p i (own t l) w.store
  follows : Follows t i l w.store ∨ Astray i (own t l) w.store

section
variable {t p i : Nat} {l : List (Nat × Answer mem)} {s s' : Store}

theorem Told.same {h : List (Answer mem)} (ht : Told p i h s)
    (hhash : (s'.heap.get p).hash = (s.heap.get p).hash) (he : s'.set.sizeExp = s.set.sizeExp) :
    Told p i h s' := by
  refine ⟨?_, fun x hx => ?_, fun e hm => ?_⟩
  · rw [hhash, he]
    exact ht.idx
  · rw [hhash]
    exact ht.hash x hx
  · rw [he]
    exact ht.sizeExp e hm

/-- The next answer is the true one too. -/
theorem Told.cons {h : List (Answer mem)} {o : Access} {u : Nat} {r : mem.Res o} (ht : Told p i h s)
    (hex : Store.exec u o s = .ok (r, s')) : Told p i (⟨o, r⟩ :: h) s := by
  refine ⟨ht.idx, fun x hx => ?_, fun e he => ?_⟩
  · rcases List.mem_cons.mp hx with hx | hx
    · cases hx
      exact (look_ok hex).1
    · exact ht.hash x hx
  · rcases List.mem_cons.mp he with he | he
    · cases he
      exact (Prod.mk.inj (Except.ok.inj hex)).1.symm
    · exact ht.sizeExp e he

theorem exec_cas_false {u : Nat} {q : Place} {c x : Bdd}
    (hex : Store.exec u (.cas q c x) s = .ok (false, s')) : s.ld q ≠ c ∧ s' = s := by
  obtain ⟨-, ⟨h0, -⟩ | ⟨-, h⟩⟩ := cas_ok hex
  · cases h0
  · exact h

theorem inside_of_head {j : Nat} (h : s.missing (.head j) = none) : j < s.set.buckets.len := by
  by_contra hj
  simp [missing, hj] at h

/-- An access of the call itself. -/
theorem Follows.own_exec {n : Nat} {o : Access} {r : mem.Res o}
    (h : Follows t i l s ∨ Astray i (own t l) s) (ht : Told p i (own t l) s) (hinv : s.Inv)
    (hinv' : s'.Inv) (hg : Grows s s') (ho : o.Seeks) (hJ : Seeking p n (own t l) o)
    (hex : Store.exec t o s = .ok (r, s')) :
    Follows t i ((t, ⟨o, r⟩) :: l) s' ∨ Astray i (own t ((t, ⟨o, r⟩) :: l)) s' := by
  cases o with
  | load q =>
    obtain ⟨hm, rfl, rfl⟩ := load_ok hex
    left
    -- a call that loads a link has its bucket
    have hq : Follows t i l s' ∧ (q = .head i ∨
        ∃ a q', q = .next a ∧ a ≠ 0 ∧ pending (own t l) = some (q', a)) := by
      cases q with
      | head j =>
        obtain ⟨x, e, hx, he, hj⟩ := hJ.2
        have hij : j = i := by
          rw [hj, ht.hash x hx, ht.sizeExp e he]
          exact ht.idx
        subst hij
        exact ⟨h.resolve_right fun ha => ha.outside (inside_of_head hm), Or.inl rfl⟩
      | next a =>
        obtain ⟨h0, q', hp⟩ := hJ.2
        refine ⟨h.resolve_right fun ha => ?_, Or.inr ⟨a, q', rfl, h0, hp⟩⟩
        rw [ha.pending] at hp
        cases hp
    exact hq.1.loaded hinv.table hq.2
  | cas q c x =>
    have hp : pending (own t l) = some (q, c) := hJ.2
    have hf : Follows t i l s := h.resolve_right fun ha => by
      rw [ha.pending] at hp
      cases hp
    left
    cases (r : Bool) with
    | true => exact hf.won hinv hinv' hg hex
    | false =>
      obtain ⟨hne, rfl⟩ := exec_cas_false hex
      exact hf.failed hp hne
  | store _ _ | key _ | hash _ | sizeExp | addEntry | spinLoop =>
    refine h.imp (fun hf => ?_) fun ha => ?_
    · refine hf.quiet hinv'.table hg (Or.inl trivial) (by rintro q c x ⟨⟩) fun q hq => ?_
      exact exec_plain ho trivial hinv hinv' hg hf.inside hex hq
    · rw [own_self]
      obtain ⟨h1, h2, h3⟩ := plain_cons (by trivial) r (own t l)
      exact ⟨by rw [hg.len]; exact ha.outside, h1.trans ha.pending, h2.trans ha.failures,
        h3.trans ha.passed⟩
  | _ => exact ho.elim

/-- An access of another thread. -/
theorem Follows.other_exec {u : Nat} {o : Access} {r : mem.Res o} (hu : u ≠ t)
    (h : Follows t i l s ∨ Astray i (own t l) s) (hinv : s.Inv) (hinv' : s'.Inv) (hg : Grows s s')
    (ho : o.Seeks) (hex : Store.exec u o s = .ok (r, s')) :
    Follows t i ((u, ⟨o, r⟩) :: l) s' ∨ Astray i (own t ((u, ⟨o, r⟩) :: l)) s' := by
  refine h.imp (fun hf => ?_) fun ha => ?_
  · cases o with
    | load q =>
      obtain ⟨-, rfl, rfl⟩ := load_ok hex
      exact hf.quiet hinv.table hg (Or.inr hu) (by rintro q c x ⟨⟩) fun _ _ => rfl
    | cas q c x =>
      cases (r : Bool) with
      | true => exact hf.linked hu hinv hinv' hg hex
      | false =>
        obtain ⟨-, rfl⟩ := exec_cas_false hex
        exact hf.quiet hinv.table hg (Or.inr hu) (by rintro q c x ⟨⟩) fun _ _ => rfl
    | store _ _ | key _ | hash _ | sizeExp | addEntry | spinLoop =>
      refine hf.quiet hinv'.table hg (Or.inr hu) (by rintro q c x ⟨⟩) fun q hq => ?_
      exact exec_plain ho trivial hinv hinv' hg hf.inside hex hq
    | _ => exact ho.elim
  · rw [own_other hu]
    exact ⟨by rw [hg.len]; exact ha.outside, ha.pending, ha.failures, ha.passed⟩

end

section
variable {s₀ : Store} {t u p i n : Nat} {l : List (Nat × Answer mem)} {w w' : Shared}

/-- **A step of any thread.** -/
theorem Among.exec {o : Access} {r : mem.Res o} (h : Among t p i l w) (hinv : Inv s₀ w)
    (hg : Guar s₀ u w w') (ho : o.Seeks) (hJ : u = t → Seeking p n (own t l) o)
    (hex : inserts.exec u o w = .ok (r, w')) : Among t p i ((u, ⟨o, r⟩) :: l) w' := by
  obtain ⟨s', hs, rfl⟩ : ∃ s', Store.exec u o w.store = .ok (r, s') ∧ w' = { w with store := s' } := by
    simp only [inserts] at hex
    split at hex
    · next hs =>
      obtain ⟨rfl, rfl⟩ := Prod.mk.inj (Except.ok.inj hex)
      exact ⟨_, hs, rfl⟩
    · cases hex
  obtain ⟨hget, hsize⟩ := exec_seeks ho hs
  by_cases hu : u = t
  · subst hu
    refine ⟨h.call, ?_, Follows.own_exec h.follows h.told hinv.store hg.inv.store hg.grows ho (hJ rfl) hs⟩
    rw [own_self]
    exact (h.told.cons hs).same (hget p).hash hsize
  · refine ⟨h.call, ?_, Follows.other_exec hu h.follows hinv.store hg.inv.store hg.grows ho hs⟩
    rw [own_other hu]
    exact h.told.same (hget p).hash hsize

/-- Where nobody has linked or counted a node. -/
theorem Among.calm (h : Among t p i l w) (hinv : Inv s₀ w) (hinv' : Inv s₀ w')
    (hg : w.store.Grows w'.store) (hcall : (t, p) ∈ w'.calls) (hset : w'.store.set = w.store.set)
    (hcell : w'.store.heap.cell p = w.store.heap.cell p) : Among t p i l w' := by
  refine ⟨hcall, h.told.same ?_ (by rw [hset]), h.follows.imp (fun hf => ?_) fun ha => ?_⟩
  · unfold Heap.get
    rw [hcell]
  · refine hf.step (m := []) hinv'.store.table hg (fun _ _ hq => hq) rfl rfl (fun e he => by cases he)
      (fun _ _ _ _ hm => by cases hm) fun q _ _ hq => Or.inl ?_
    exact ld_quiet hinv.store hinv'.store hg (by rw [hset]) hf.inside hq
  · exact ⟨by rw [hset]; exact ha.outside, ha.pending, ha.failures, ha.passed⟩

/-- Another thread allocates or fills in a node. -/
theorem Among.enter {c : Call} (h : Among t p i l w) (hinv : Inv s₀ w) (hl : inserts.legal u c w)
    (hg : Guar s₀ u w (inserts.enter u c w)) : Among t p i l (inserts.enter u c w) := by
  cases c with
  | alloc =>
    refine h.calm hinv hg.inv hg.grows h.call rfl ?_
    exact Heap.alloc_cell_of_ne (hinv.has t p h.call).1.ne_fresh
  | insert q level low high =>
    refine h.calm hinv hg.inv hg.grows (List.mem_cons_of_mem _ h.call) rfl (fill_cell_of_ne ?_)
    rintro rfl
    exact hl.2.2 t h.call

theorem Among.leave {c : Call} {r : Bdd × Bool} (hu : u ≠ t) (h : Among t p i l w) (hinv : Inv s₀ w)
    (hg : Guar s₀ u w (inserts.leave u c r w)) : Among t p i l (inserts.leave u c r w) := by
  have hcall := ((hg.keeps t (Ne.symm hu)).calls p).mpr h.call
  cases c with
  | alloc => exact h.calm hinv hg.inv hg.grows hcall rfl rfl
  | insert _ _ _ _ => exact h.calm hinv hg.inv hg.grows hcall rfl rfl

end

section
variable {s₀ : Store} {t p n : Nat} {level : UInt64} {low high : Bdd} {l : List (Nat × Answer mem)}
  {s : Conf mem Shared Nat Call (Bdd × Bool)}

/-- Every configuration inside the call. -/
theorem among (h₀ : s₀.Inv) (ho : s₀.set.owed = [])
    (h : inserts.Within (fun _ => True) ⟨s₀, [], []⟩ t (.insert p level low high) n l s) :
    Among t p (maskIdx (Node.from' level low high).hash s₀.set.sizeExp) l s.world := by
  refine System.Within.holds (proof s₀) (inv_start h₀ ho) (idle_start h₀ ho) (A := Access.Seeks)
    (fun _ c n => ?_) (plays_getOrInsert p n) (fun w hinv hl hg => ?_)
    (fun l w u o r w' hk hinv hg hex hA hJ => hk.exec hinv hg hA hJ hex)
    (fun l w u c _ hk hinv hl hg => hk.enter hinv hl hg)
    (fun l w u c a hu hk hinv hg => hk.leave hu hinv hg) h
  · cases c with
    | alloc => trivial
    | insert q _ _ _ => exact LockFreeSet.seeks_getOrInsert q n
  · have hget : ((fill w.store p level low high).heap.get p) = Node.from' level low high :=
      fill_get hl.1
    refine ⟨List.mem_cons_self, ⟨?_, fun _ hx => absurd hx List.not_mem_nil,
      fun _ he => absurd he List.not_mem_nil⟩, ?_⟩
    · show maskIdx ((fill w.store p level low high).heap.get p).hash w.store.set.sizeExp = _
      rw [hget, hinv.grows.sizeExp]
    · by_cases hi : maskIdx (Node.from' level low high).hash s₀.set.sizeExp <
          w.store.set.buckets.len
      · left
        refine ⟨hi, fun _ _ _ _ hm => absurd hm List.not_mem_nil, nofun, ?_, Nat.le_refl 0,
          fun l₀ _ _ _ _ hl => ?_, nofun⟩
        · exact ⟨[], rfl, .nil, fun _ ha => absurd ha List.not_mem_nil, nofun⟩
        · cases l₀ with
          | nil => cases hl
          | cons _ _ => cases hl
      · exact Or.inr ⟨hi, rfl, rfl, rfl⟩

/-- **Bounded retries of `get_or_insert`.**  In every run from a table in order, inside the call of
thread `t` with its node `p`, whose bucket is `i`:

for each exchange that failed, another thread had linked a node into bucket `i` since `t` last
loaded a link, and that was the link it tried to change; its exchange has failed no more often than
others have linked nodes into bucket `i` since the call began, and never where nobody else took a
step; a walk goes up the chain of the bucket and passes each of its nodes at most once, with two
accesses for each; and with more rounds than these numbers the call does not run out of them. -/
theorem getOrInsert_retries (s₀ : Store) (h₀ : s₀.Inv) (ho : s₀.set.owed = []) (t : Nat) (p : Bdd)
    (level : UInt64) (low high : Bdd) (n : Nat) (l : List (Nat × Answer mem))
    (s : Conf mem Shared Nat Call (Bdd × Bool))
    (h : inserts.Within (fun _ => True) ⟨s₀, [], []⟩ t (.insert p level low high) n l s) (i : Nat)
    (hi : i = maskIdx (Node.from' level low high).hash s₀.set.sizeExp) :
    (∀ l₀ q c x l', l = l₀ ++ (t, ⟨.cas q c x, false⟩) :: l' →
      ∃ l₁ l₂, l' = l₁ ++ (t, ⟨.load q, c⟩) :: l₂ ∧ (∀ e ∈ l₁, loads t e = false) ∧
        ∃ e ∈ l₁, e.1 ≠ t ∧ linksInto i s.world.store e.2 = true) ∧
    failures (own t l) ≤ links t i s.world.store l ∧
    ((∀ e ∈ l, e.1 = t) → failures (own t l) = 0) ∧
    (∃ tr : List Bdd, tr.length = passed (own t l) ∧
      (tr.Pairwise fun a b => s.world.store.key a < s.world.store.key b) ∧
      ∀ a ∈ tr, a ∈ s.world.store.chain i) ∧
    walked (own t l) ≤ 2 * (s.world.store.chain i).length + 4 ∧
    ∀ c k, s.pc t = some (c, .step (.spinLoop : Access) k) →
      n ≤ links t i s.world.store l + (s.world.store.chain i).length + 1 := by
  subst hi
  have hk := among h₀ ho h
  generalize maskIdx (Node.from' level low high).hash s₀.set.sizeExp = i at hk ⊢
  have hfail : failures (own t l) ≤ links t i s.world.store l := by
    rcases hk.follows with hf | ha
    · exact hf.count
    · rw [ha.failures]
      exact Nat.zero_le _
  have htrail : ∃ tr : List Bdd, tr.length = passed (own t l) ∧
      (tr.Pairwise fun a b => s.world.store.key a < s.world.store.key b) ∧
      ∀ a ∈ tr, a ∈ s.world.store.chain i := by
    rcases hk.follows with hf | ha
    · obtain ⟨tr, h1, h2, h3, -⟩ := hf.trail
      exact ⟨tr, h1, h2, h3⟩
    · exact ⟨[], ha.passed.symm, .nil, fun _ ha => absurd ha List.not_mem_nil⟩
  -- the nodes passed are different ones of the chain
  have hpassed : passed (own t l) ≤ (s.world.store.chain i).length := by
    obtain ⟨tr, h1, h2, h3⟩ := htrail
    have hnd : tr.Nodup := h2.imp fun hlt he => absurd (he ▸ hlt) (lt_irrefl _)
    rw [← h1]
    exact (hnd.subperm h3).length_le
  obtain ⟨code, hpc, hplay⟩ := h.plays (plays_getOrInsert p n)
  refine ⟨?_, hfail, fun halone => ?_, htrail, ?_, fun c k hspin => ?_⟩
  · rcases hk.follows with hf | ha
    · exact hf.blamed
    · intro l₀ q c x l' hl
      refine absurd ?_ (not_failed ha.failures (q := q) (c := c) (x := x))
      rw [hl]
      simp
  · have hnone : links t i s.world.store l = 0 := by
      refine List.countP_eq_zero.mpr fun e he => ?_
      simp [halone e he]
    omega
  · have hw : walked (own t l) ≤ 2 * passed (own t l) + 4 := Walked.of_plays hplay
    omega
  · obtain ⟨-, rfl⟩ := Prod.mk.inj (Option.some.inj (hspin.symm.trans hpc))
    have hn : n ≤ failures (own t l) + passed (own t l) + 1 := hplay.1.2
    omega

end

/-- Two threads insert nodes with one key: the first finds an empty chain, the second links its
node, and the exchange of the first fails. -/
theorem getOrInsert_retries_two : ∃ (s₀ : Store) (l : List (Nat × Answer mem))
    (s : Conf mem Shared Nat Call (Bdd × Bool)) (i : Nat),
    inserts.Within (fun _ => True) ⟨s₀, [], []⟩ 0 (.insert 1 0 0 0) 3 l s ∧
    failures (own 0 l) = 1 ∧
    (∀ l₀ q c x l', l = l₀ ++ (0, ⟨.cas q c x, false⟩) :: l' →
      ∃ l₁ l₂, l' = l₁ ++ (0, ⟨.load q, c⟩) :: l₂ ∧ (∀ e ∈ l₁, loads 0 e = false) ∧
        ∃ e ∈ l₁, e.1 ≠ 0 ∧ linksInto i s.world.store e.2 = true) ∧
    failures (own 0 l) ≤ links 0 i s.world.store l ∧
    ((∀ e ∈ l, e.1 = 0) → failures (own 0 l) = 0) ∧
    (∃ tr : List Bdd, tr.length = passed (own 0 l) ∧
      (tr.Pairwise fun a b => s.world.store.key a < s.world.store.key b) ∧
      ∀ a ∈ tr, a ∈ s.world.store.chain i) ∧
    walked (own 0 l) ≤ 2 * (s.world.store.chain i).length + 4 ∧
    ∀ c k, s.pc 0 = some (c, .step (.spinLoop : Access) k) →
      3 ≤ links 0 i s.world.store l + (s.world.store.chain i).length + 1 := by
  let s₀ : Store := ⟨.empty fun _ => 0, .withCapacity 1, fun _ => 0⟩
  have hnone : ∀ (s : Store) (a : Bdd), (∀ i, s.chain i = []) → ¬ s.Live a := by
    rintro s a h ⟨i, -, hm⟩
    rw [h i] at hm
    cases hm
  have h0 : inserts.Reach (fun _ => True) ⟨s₀, [], []⟩ _ := .init
  have h1 := h0.call 0 .alloc 0 rfl trivial trivial
  have h2 := h1.ret 0 .alloc (0, false) rfl trivial
  have h3 := h2.call 1 .alloc 0 rfl trivial trivial
  have h4 := h3.ret 1 .alloc (0, false) rfl trivial
  have w0 : inserts.Within (fun _ => True) ⟨s₀, [], []⟩ 0 (.insert 1 0 0 0) 3 [] _ := .enter h4 rfl
    ⟨⟨_, rfl⟩, hnone _ 1 fun _ => rfl, fun _ => List.not_mem_nil⟩ trivial
  have w1 := w0.exec 0 (.insert 1 0 0 0) (.hash 1) _ (splitmix64_3 0 0 0) _ rfl rfl trivial
  have w2 := w1.exec 0 (.insert 1 0 0 0) .sizeExp _ (1 : Nat) _ rfl rfl trivial
  have w3 := w2.exec 0 (.insert 1 0 0 0) (.key 1) _ (Node.from' 0 0 0).key _ rfl rfl trivial
  have w4 := w3.exec 0 (.insert 1 0 0 0) (.load (.head (maskIdx (splitmix64_3 0 0 0) 1))) _
    (0 : Nat) _ rfl rfl trivial
  have w5 := w4.exec 0 (.insert 1 0 0 0) (.store (.next 1) 0) _ () _ rfl rfl trivial
  have v0 := w5.call 1 (.insert 2 0 0 0) 3 rfl
    ⟨⟨_, rfl⟩, hnone _ 2 fun _ => rfl, fun u hu => nomatch List.mem_singleton.mp hu⟩ trivial
  have v1 := v0.exec 1 (.insert 2 0 0 0) (.hash 2) _ (splitmix64_3 0 0 0) _ rfl rfl trivial
  have v2 := v1.exec 1 (.insert 2 0 0 0) .sizeExp _ (1 : Nat) _ rfl rfl trivial
  have v3 := v2.exec 1 (.insert 2 0 0 0) (.key 2) _ (Node.from' 0 0 0).key _ rfl rfl trivial
  have v4 := v3.exec 1 (.insert 2 0 0 0) (.load (.head (maskIdx (splitmix64_3 0 0 0) 1))) _
    (0 : Nat) _ rfl rfl trivial
  have v5 := v4.exec 1 (.insert 2 0 0 0) (.store (.next 2) 0) _ () _ rfl rfl trivial
  have v6 := v5.exec 1 (.insert 2 0 0 0) (.cas (.head (maskIdx (splitmix64_3 0 0 0) 1)) 0 2) _
    true _ rfl rfl trivial
  have w6 := v6.exec 0 (.insert 1 0 0 0) (.cas (.head (maskIdx (splitmix64_3 0 0 0) 1)) 0 1) _
    false _ rfl rfl trivial
  exact ⟨s₀, _, _, _, w6, rfl,
    getOrInsert_retries s₀ (Inv.of_empty (fun _ _ => rfl) rfl rfl) rfl 0 1 0 0 0 3 _ _ w6 _ rfl⟩

end Tobdd.SetThreads
