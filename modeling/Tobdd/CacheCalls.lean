import Tobdd.CacheThreads
import Tobdd.Lib.Schedule

/-!
# What the inserts of a memo table stored

`stored i` of `CacheThreads` is what came to its end in slot `i`.  In every run it is what insert
calls were given for that slot since the table was last emptied (`Told`), and so:

    a slot's word is -1 with one writer and no reader, or the number of readers with no
    writer; `get(hash, q)` answers the default value or a `v` that some insert stored as
    the pair `(q, v)` in that slot since the last `invalidate_all` or `grow`   (get_not_torn)
-/

namespace Tobdd.CacheThreads

open Resume

section
variable {Tid K V A B : Type}

/-- The calls and returns since the table was last emptied. -/
def since : List (Event Tid (Call K V) (Ret V)) → List (Event Tid (Call K V) (Ret V))
  | [] => []
  | .call _ .invalidateAll :: _ | .call _ .grow :: _ => []
  | e :: h => e :: since h

/-- Since then an insert of the pair `x` was called, and its slot is `i`. -/
def Asked (idx : UInt64 → Nat) (h : List (Event Tid (Call K V) (Ret V))) (i : Nat) (x : K × V) : Prop :=
  ∃ t hash, .call t (.insert hash x.1 x.2) ∈ since h ∧ idx hash = i

/-- `slot` answers what `idx` says. -/
def Leads (idx : UInt64 → Nat) : (o : Op K V) → (sig K V).Res o → Prop
  | .slot hash, i => i = idx hash
  | _, _ => True

def Releases (P : Nat → K × V → Prop) : Op K V → Prop
  | .release i x => P i x
  | _ => True

/-- Wherever the code stores a pair `x` in a slot `i`, `P i x` holds. -/
def Stores (idx : UInt64 → Nat) (P : Nat → K × V → Prop) : Prog (sig K V) A → Prop
  | .ret _ => True
  | .step o k => Releases P o ∧ ∀ r, Leads idx o r → Stores idx P (k r)

variable {idx : UInt64 → Nat} {P Q : Nat → K × V → Prop} {p q : Prog (sig K V) A}

theorem Stores.mono (h : ∀ i x, P i x → Q i x) (hp : Stores idx P p) : Stores idx Q p := by
  induction p with
  | ret a => trivial
  | step o k ih =>
    refine ⟨?_, fun r hr => ih r (hp.2 r hr)⟩
    cases o with
    | release i x => exact h i x hp.1
    | _ => trivial

theorem Stores.bind {f : A → Prog (sig K V) B} (hp : Stores idx P p) (hf : ∀ a, Stores idx P (f a)) :
    Stores idx P (p >>= f) := by
  induction p with
  | ret a => exact hf a
  | step o k ih => exact ⟨hp.1, fun r hr => ih r (hp.2 r hr)⟩

theorem stores_op {o : Op K V} {f : (sig K V).Res o → Prog (sig K V) A} (ho : Releases P o)
    (hf : ∀ r, Stores idx P (f r)) : Stores idx P (Prog.op (S := sig K V) o >>= f) :=
  ⟨ho, fun r _ => hf r⟩

theorem stores_ite {b : Prop} {_ : Decidable b} (hp : Stores idx P p) (hq : Stores idx P q) :
    Stores idx P (if b then p else q) := by
  split
  · exact hp
  · exact hq

theorem stores_read (i n : Nat) : Stores idx P (read i n : Prog (sig K V) Unit) := by
  induction n with
  | zero => exact ⟨trivial, fun r => r.elim⟩
  | succ n ih =>
    refine stores_op (o := .load i) trivial fun s => stores_ite ih (stores_ite ?_ ?_)
    · exact ⟨trivial, fun r => r.elim⟩
    · exact stores_op (o := .casRead i s) trivial fun ok => stores_ite trivial ih

/-- A get stores nothing. -/
theorem stores_get [DecidableEq K] [Inhabited V] (hash : UInt64) (q : K) (n : Nat) :
    Stores idx P (get hash q n : Prog (sig K V) (Ret V)) := by
  refine stores_op (o := .slot hash) trivial fun i => (stores_read i n).bind fun _ =>
    stores_op (o := .readKey i) trivial fun k => stores_ite ?_ ?_
  · exact stores_op (o := .readValue i) trivial fun v =>
      stores_op (o := .fetchSub i) trivial fun _ => trivial
  · exact stores_op (o := .fetchSub i) trivial fun _ => trivial

/-- An insert stores its own pair, in its own slot. -/
theorem stores_insert {hash : UInt64} {key : K} {value : V} (h : P (idx hash) (key, value)) :
    Stores idx P (insert hash key value) := by
  refine ⟨trivial, ?_⟩
  rintro i rfl
  refine stores_op (o := .load _) trivial fun s => stores_ite trivial ?_
  refine stores_op (o := .casWrite _) trivial fun ok => stores_ite ?_ trivial
  exact stores_op (o := .writeKey _ _) trivial fun _ => stores_op (o := .writeValue _ _) trivial
    fun _ => stores_op (o := .release _ _) h fun _ => trivial

/-- A call or a return that does not empty the table. -/
theorem Asked.cons {h : List (Event Tid (Call K V) (Ret V))} {i : Nat} {x : K × V}
    (e : Event Tid (Call K V) (Ret V)) (he : since (e :: h) = e :: since h) (ha : Asked idx h i x) :
    Asked idx (e :: h) i x := by
  obtain ⟨t, hash, hm, hi⟩ := ha
  exact ⟨t, hash, he ▸ List.mem_cons_of_mem _ hm, hi⟩

end

section
variable {Tid K V : Type} [DecidableEq Tid] [Inhabited K] [Inhabited V]

omit [Inhabited K] [Inhabited V] in
/-- An operation stores at most its own pair, and leaves the length of the table. -/
theorem exec_stores {t : Tid} {o : Op K V} {r : (sig K V).Res o} {w w' : Shared Tid K V}
    {P : Nat → K × V → Prop} (he : exec t o w = .ok (r, w')) (ho : Releases P o) :
    w'.busy = w.busy ∧ w'.cache.slotIdx = w.cache.slotIdx ∧ Leads w.cache.slotIdx o r ∧
    ∀ i x, x ∈ w'.stored i → x ∈ w.stored i ∨ P i x := by
  have hsame : ∀ i x, x ∈ w.stored i → x ∈ w.stored i ∨ P i x := fun i x => Or.inl
  cases o with
  | slot hash =>
    simp only [exec] at he
    split at he
    · obtain ⟨rfl, rfl⟩ := Prod.mk.inj (Except.ok.inj he)
      exact ⟨rfl, rfl, rfl, hsame⟩
    · cases he
  | casRead i s =>
    simp only [exec] at he
    split at he
    all_goals
      obtain ⟨rfl, rfl⟩ := Prod.mk.inj (Except.ok.inj he)
      exact ⟨rfl, rfl, trivial, hsame⟩
  | casWrite i =>
    simp only [exec] at he
    split at he
    all_goals
      obtain ⟨rfl, rfl⟩ := Prod.mk.inj (Except.ok.inj he)
      exact ⟨rfl, rfl, trivial, hsame⟩
  | release i pair =>
    obtain ⟨rfl, rfl⟩ := Prod.mk.inj (Except.ok.inj he)
    refine ⟨rfl, rfl, trivial, fun j x hx => ?_⟩
    by_cases hj : j = i
    · subst hj
      simp only [Function.update_self] at hx
      obtain rfl | hx := List.mem_cons.mp hx
      · exact Or.inr ho
      · exact Or.inl hx
    · simp only [Function.update_of_ne hj] at hx
      exact Or.inl hx
  | load | readKey | readValue | fetchSub | writeKey | writeValue =>
    obtain ⟨rfl, rfl⟩ := Prod.mk.inj (Except.ok.inj he)
    exact ⟨rfl, rfl, trivial, hsame⟩
  | panic | spinLoop => cases he

/-- What was stored, and what the threads inside will store, is what they were given. -/
structure Told (h : List (Event Tid (Call K V) (Ret V)))
    (s : Conf (sig K V) (Shared Tid K V) Tid (Call K V) (Ret V)) : Prop where
  inside : ∀ t c p, s.pc t = some (c, p) →
    t ∈ s.world.busy ∧ Stores s.world.cache.slotIdx (Asked s.world.cache.slotIdx h) p
  stored : ∀ i x, x ∈ s.world.stored i → Asked s.world.cache.slotIdx h i x

omit [Inhabited K] [Inhabited V] in
/-- Entering a get or an insert. -/
theorem Told.enter {h : List (Event Tid (Call K V) (Ret V))}
    {s : Conf (sig K V) (Shared Tid K V) Tid (Call K V) (Ret V)} (hs : Told h s) {t : Tid}
    {c : Call K V} (he : since (Event.call t c :: h) = .call t c :: since h)
    {p : Prog (sig K V) (Ret V)}
    (hp : Stores s.world.cache.slotIdx (Asked s.world.cache.slotIdx (.call t c :: h)) p) :
    Told (.call t c :: h)
      ⟨{ s.world with busy := t :: s.world.busy }, Function.update s.pc t (some (c, p))⟩ := by
  refine ⟨fun u c' p' hu => ?_, fun i x hx => (hs.stored i x hx).cons _ he⟩
  obtain ⟨rfl, hx⟩ | ⟨-, hx⟩ := update_cases hu
  · obtain ⟨rfl, rfl⟩ := Prod.mk.inj (Option.some.inj hx)
    exact ⟨List.mem_cons_self, hp⟩
  · obtain ⟨hb, hst⟩ := hs.inside u c' p' hx
    exact ⟨List.mem_cons_of_mem _ hb, hst.mono fun i x hx => hx.cons _ he⟩

omit [Inhabited K] [Inhabited V] in
/-- Emptying the table while nobody is inside it. -/
theorem Told.empty {h h' : List (Event Tid (Call K V) (Ret V))}
    {s : Conf (sig K V) (Shared Tid K V) Tid (Call K V) (Ret V)} (hs : Told h s)
    (hb : s.world.busy = []) (t : Tid) (c : Call K V) (a : Ret V) (cache : LockFreeCache K V) :
    Told h'
      ⟨{ s.world with cache := cache, stored := fun _ => [], busy := t :: s.world.busy },
        Function.update s.pc t (some (c, .ret a))⟩ := by
  refine ⟨fun u c' p' hu => ?_, fun i x hx => absurd hx List.not_mem_nil⟩
  obtain ⟨rfl, hx⟩ | ⟨-, hx⟩ := update_cases hu
  · obtain ⟨rfl, rfl⟩ := Prod.mk.inj (Option.some.inj hx)
    exact ⟨List.mem_cons_self, trivial⟩
  · have hin := (hs.inside u c' p' hx).1
    rw [hb] at hin
    cases hin

theorem told [DecidableEq K] {cap : UInt64} {weak : Nat → Bool}
    {h : List (Event Tid (Call K V) (Ret V))}
    {s : Conf (sig K V) (Shared Tid K V) Tid (Call K V) (Ret V)}
    (hs : tables.Runs (fun _ => True) (new cap weak) h s) : Told h s := by
  induction hs with
  | init => exact ⟨fun _ _ _ hpc => (nomatch hpc), fun _ _ hx => absurd hx List.not_mem_nil⟩
  | @call h s _ t c n _ hl _ ih =>
    cases c with
    | get hash q => exact ih.enter rfl (stores_get hash q n)
    | insert hash key value =>
      exact ih.enter rfl (stores_insert ⟨t, hash, List.mem_cons_self, rfl⟩)
    | invalidateAll => exact ih.empty hl t _ _ _
    | grow => exact ih.empty hl t _ _ _
  | @exec h s _ t c o k r w' hpc he _ ih =>
    obtain ⟨hb, ho, hk⟩ := ih.inside t c _ hpc
    obtain ⟨hbusy, hidx, hr, hst⟩ := exec_stores he ho
    refine ⟨fun u c' p' hu => ?_, fun i x hx => ?_⟩
    · show u ∈ w'.busy ∧ Stores w'.cache.slotIdx (Asked w'.cache.slotIdx h) p'
      rw [hbusy, hidx]
      obtain ⟨rfl, hx⟩ | ⟨-, hx⟩ := update_cases hu
      · obtain ⟨rfl, rfl⟩ := Prod.mk.inj (Option.some.inj hx)
        exact ⟨hb, hk r hr⟩
      · exact ih.inside u c' p' hx
    · show Asked w'.cache.slotIdx h i x
      rw [hidx]
      exact (hst i x hx).elim (ih.stored i x) id
  | @ret h s _ t c a hpc _ ih =>
    refine ⟨fun u c' p' hu => ?_, fun i x hx => (ih.stored i x hx).cons _ rfl⟩
    obtain ⟨-, hx⟩ | ⟨hut, hx⟩ := update_cases hu
    · cases hx
    · obtain ⟨hb, hst⟩ := ih.inside u c' p' hx
      exact ⟨(List.mem_erase_of_ne hut).mpr hb, hst.mono fun i x hx => hx.cons _ rfl⟩

/-- **No torn reads.**  In every run, a slot's lock word is `-1` with one writer and no
reader or the number of readers with no writer; what is stored in a slot are pairs that insert
calls were given for it since the table was last emptied; and when a `get(hash, q)` is about to
return, its answer is the default value or a `v` such that the pair `(q, v)` is among these. -/
theorem get_not_torn [DecidableEq K] (cap : UInt64) (weak : Nat → Bool)
    (h : List (Event Tid (Call K V) (Ret V)))
    (s : Conf (sig K V) (Shared Tid K V) Tid (Call K V) (Ret V))
    (hs : tables.Runs (fun _ => True) (new cap weak) h s) :
    (∀ i, ((s.world.slot i).state = -1 ∧ (s.world.writers i).length = 1 ∧ s.world.readers i = []) ∨
      ((s.world.slot i).state = (s.world.readers i).length ∧ s.world.writers i = [])) ∧
    (∀ i x, x ∈ s.world.stored i → Asked s.world.cache.slotIdx h i x) ∧
    ∀ t hash q v, s.pc t = some (.get hash q, .ret (.value v)) → q ≠ default →
      v = default ∨ (q, v) ∈ s.world.stored (s.world.cache.slotIdx hash) ∧
        ∃ u hash', .call u (.insert hash' q v) ∈ since h ∧
          s.world.cache.slotIdx hash' = s.world.cache.slotIdx hash := by
  obtain ⟨hinv, hat⟩ := proof.sound (inv_new cap weak)
    (fun t => ⟨inv_new cap weak, List.not_mem_nil⟩) hs.reach
  have hstored := (told hs).stored
  refine ⟨fun i => ?_, hstored, fun t hash q v hpc hne => ?_⟩
  · cases hinv.slot i with
    | shared a b _ _ => exact Or.inr ⟨b, a⟩
    | writing u a b c => exact Or.inl ⟨c, by rw [a]; rfl, b⟩
  · have ht := hat t
    rw [hpc] at ht
    exact (ht.2 v rfl hne).imp_right fun hm => ⟨hm, hstored _ _ hm⟩

end

/-! ## A reader between two inserts into one slot -/

abbrev Log := List (Event Nat (Call Nat Nat) (Ret Nat))
abbrev State := Conf (sig Nat Nat) (Shared Nat Nat Nat) Nat (Call Nat Nat) (Ret Nat)

def play (l : List (Nat × Turn (Call Nat Nat))) : Option (Log × State) :=
  tables.follow (fun _ c _ => match c with | .get _ _ | .insert _ _ _ => true | _ => false)
    (fun _ => true) l [] ⟨new 1 fun _ => false, fun _ => none⟩

/-- Thread 0 stores `(1, 5)`.  While thread 1 reads it, thread 2 gives up its insert of `(2, 7)`;
then thread 3 has written the key of `(2, 7)` and not yet the value. -/
def halfway : List (Nat × Turn (Call Nat Nat)) :=
  (0, .call (.insert 0 1 5) 1) :: List.replicate 7 (0, .go) ++
  (1, .call (.get 0 1) 1) :: List.replicate 4 (1, .go) ++
  (2, .call (.insert 2 2 7) 1) :: List.replicate 3 (2, .go) ++ List.replicate 2 (1, .go) ++
  (3, .call (.insert 2 2 7) 1) :: List.replicate 4 (3, .go) ++
  (4, .call (.get 2 2) 2) :: List.replicate 2 (4, .go)

/-- Thread 3 comes to its end, and thread 4, which waited for it, reads what it wrote; thread 5
looks for the pair that is gone. -/
def renewed : List (Nat × Turn (Call Nat Nat)) :=
  halfway ++ List.replicate 3 (3, .go) ++ List.replicate 5 (4, .go) ++
  (5, .call (.get 0 1) 1) :: List.replicate 5 (5, .go)

theorem play_runs {l : List (Nat × Turn (Call Nat Nat))} {h : Log} {s : State}
    (hrun : play l = some (h, s)) : tables.Runs (fun _ => True) (new 1 fun _ => false) h s := by
  refine System.Runs.follow .init ?_ (fun _ _ => trivial) l hrun
  intro t c w hc
  cases c with
  | get _ _ => trivial
  | insert _ _ _ => trivial
  | invalidateAll => cases hc
  | grow => cases hc

theorem halfway_run : ∃ x ∈ play halfway, x.2.returning 1 = some (.get 0 1, .value 5) ∧
    (x.2.world.slot 0).state = -1 ∧ (x.2.world.slot 0).key = 2 ∧ (x.2.world.slot 0).value = 5 := by
  decide +kernel

theorem renewed_run : ∃ x ∈ play renewed, x.2.returning 4 = some (.get 2 2, .value 7) ∧
    x.2.returning 5 = some (.get 0 1, .value 0) := by
  decide +kernel

/-- The pair `(2, 5)` is in the slot for a while, under the write lock; no get answers it. -/
theorem get_not_torn_halfway :
    (∃ h s, tables.Runs (fun _ => True) (new 1 fun _ => false : Shared Nat Nat Nat) h s ∧
      s.pc 1 = some (.get 0 1, .ret (.value 5)) ∧
      (s.world.slot 0).key = 2 ∧ (s.world.slot 0).value = 5 ∧
      (s.world.writers 0).length = 1 ∧ s.world.readers 0 = [] ∧
      ∃ u hash, .call u (.insert hash 1 5) ∈ since h) ∧
    ∃ h s, tables.Runs (fun _ => True) (new 1 fun _ => false : Shared Nat Nat Nat) h s ∧
      s.pc 4 = some (.get 2 2, .ret (.value 7)) ∧ s.pc 5 = some (.get 0 1, .ret (.value 0)) ∧
      (2, 7) ∈ s.world.stored (s.world.cache.slotIdx 2) ∧
      ∀ x ∈ s.world.stored 0, ∃ u hash, .call u (.insert hash x.1 x.2) ∈ since h := by
  constructor
  · obtain ⟨⟨h, s⟩, hrun, hans, hstate, hkey, hvalue⟩ := halfway_run
    have hs := play_runs hrun
    obtain ⟨hslot, -, hget⟩ := get_not_torn 1 _ h s hs
    have hpc := Conf.pc_of_returning hans
    obtain ⟨-, hw, hr⟩ | ⟨hcount, -⟩ := hslot 0
    · obtain h0 | ⟨-, u, hash, hm, -⟩ := hget 1 0 1 5 hpc (by decide)
      · exact absurd h0 (by decide)
      · exact ⟨h, s, hs, hpc, hkey, hvalue, hw, hr, u, hash, hm⟩
    · have hneg : (s.world.slot 0).state = -1 := hstate
      omega
  · obtain ⟨⟨h, s⟩, hrun, h4, h5⟩ := renewed_run
    have hs := play_runs hrun
    obtain ⟨-, hasked, hget⟩ := get_not_torn 1 _ h s hs
    obtain h0 | ⟨hm, -⟩ := hget 4 2 2 7 (Conf.pc_of_returning h4) (by decide)
    · exact absurd h0 (by decide)
    · refine ⟨h, s, hs, Conf.pc_of_returning h4, Conf.pc_of_returning h5, hm, fun x hx => ?_⟩
      obtain ⟨u, hash, hc, -⟩ := hasked 0 x hx
      exact ⟨u, hash, hc⟩

end Tobdd.CacheThreads
