import Tobdd.LockWord

/-!
# The word of the lock does what its guards say

A thread takes its read guard at the exchange in `read` that succeeds, the place of the writer at
the first exchange of `try_write`, and the write guard at the second one; and it fails to get the
place at the load, or at the exchange that failed, that showed it a writer's bit.  Nothing else that
the code of the lock does can be seen.

    sim_expand: a call over the word is matched by the call over the guards
    word_refines: every run over the word is a run over the guards
    word_secure: no thread cleans up while another one visits, none comes to freed memory, and
      every operation answers right
-/

namespace Tobdd.LockWord

open Resume World
open Manager (ops step fresh x0 x1)
open ManagerThreads (Call Ret clients code)
open RwWPre (Lock Site)

/-! ## What a step does with the guards -/

section
variable {m t : Nat} {w : World} {l : RwLock}

theorem withLock_put (s : Store) : (w.withLock m l).put m s = (w.put m s).withLock m l := by
  simp [World.put, World.withLock, World.setMgr]

/-- A step that leaves the lock alone does not look at it. -/
theorem exec_withLock {o : ops.Op} (ho : Locks o = false) :
    Manager.exec m t o (w.withLock m l) =
      (Manager.exec m t o w).map fun y => (y.1, y.2.withLock m l) := by
  have hchange : ∀ g : Manager, Manager.change (w.withLock m l) m { g with rwLock := l } =
      (Manager.change w m g).map fun y => (y.1, y.2.withLock m l) := by
    intro g
    simp [Manager.change, World.withLock, World.setMgr, Except.map]
  cases o with
  | tryPending | awaitReaders | dropWrite | read | dropRead => cases ho
  | acc o | clean o =>
    simp only [Manager.exec, withLock_store]
    cases (w.store m).exec t o with
    | error e => rfl
    | ok y => exact congrArg (fun w' => Except.ok (y.1, w')) (withLock_put y.2)
  | makeNode level low high =>
    simp only [Manager.exec, withLock_store, withLock_heap]
    cases run (Store.exec t) (makeNode level low high (w.heap.brk + 2)) (w.store m) with
    | error e => rfl
    | ok y => exact congrArg (fun w' => Except.ok (y.1, w')) (withLock_put y.2)
  | notGet hash bdd =>
    simp only [Manager.exec, withLock_mgr]
    cases (w.mgr m).notCache.get hash bdd with
    | error e => rfl
    | ok v => rfl
  | notInsert hash bdd res =>
    simp only [Manager.exec, withLock_mgr]
    cases (w.mgr m).notCache.insert hash bdd res with
    | error e => rfl
    | ok v => exact hchange { w.mgr m with notCache := v.2 }
  | get c hash pair =>
    simp only [Manager.exec, withLock_mgr]
    cases ((w.mgr m).cache c).get hash pair with
    | error e => rfl
    | ok v => rfl
  | insert c hash pair res =>
    simp only [Manager.exec, withLock_mgr]
    cases ((w.mgr m).cache c).insert hash pair res with
    | error e => rfl
    | ok v => exact hchange { w.mgr m with cache := Function.update (w.mgr m).cache c v.2 }
  | notInvalidate =>
    simp only [Manager.exec, withLock_mgr]
    exact hchange { w.mgr m with notCache := (w.mgr m).notCache.invalidateAll }
  | notGrow =>
    simp only [Manager.exec, withLock_mgr]
    exact hchange { w.mgr m with notCache := (w.mgr m).notCache.grow }
  | invalidate c =>
    simp only [Manager.exec, withLock_mgr]
    exact hchange { w.mgr m with
      cache := Function.update (w.mgr m).cache c ((w.mgr m).cache c).invalidateAll }
  | grow c =>
    simp only [Manager.exec, withLock_mgr]
    exact hchange { w.mgr m with
      cache := Function.update (w.mgr m).cache c ((w.mgr m).cache c).grow }
  | spinLoop => rfl

end
section
variable {m t : Nat} {x : Shared} {l : Lock Nat}

/-- A step that turns the guards the word stands for into those it stands for afterwards. -/
theorem does_lock {o : ops.Op} (ho : Locks o = true) {r : ops.Res o} {b : RwLock} (hb : guards l = b)
    (he : Manager.exec m t o (x.clients.world.withLock m (guards x.lock)) =
      .ok (r, x.clients.world.withLock m b)) :
    ManagerThreads.exec m t o (x.abs m) = .ok (r, ({ x with lock := l } : Shared).abs m) := by
  have hacc : ManagerThreads.account t o x.clients.refs = x.clients.refs := by
    cases o with
    | tryPending | awaitReaders | dropWrite | read | dropRead => rfl
    | _ => cases ho
  simp only [ManagerThreads.exec, Shared.abs, he, hacc, hb]

theorem setMgr_guards (w : World) (a b : RwLock) :
    (w.withLock m a).setMgr m { w.mgr m with rwLock := b } = w.withLock m b := by
  simp [World.withLock, World.setMgr]

theorem does_busy (h : x.lock.writers ≠ []) :
    ManagerThreads.exec m t .tryPending (x.abs m) = .ok (false, x.abs m) := by
  obtain ⟨u, us, hu⟩ := List.exists_cons_of_ne_nil h
  have hw : (guards x.lock).writer = some u := by rw [guards, hu]; rfl
  refine does_lock rfl rfl ?_
  simp only [Manager.exec, withLock_mgr, hw]

theorem does_pending (h : x.lock.writers = []) (hr : l.readers = x.lock.readers)
    (hw : l.writers = (t, false) :: x.lock.writers) :
    ManagerThreads.exec m t .tryPending (x.abs m) =
      .ok (true, ({ x with lock := l } : Shared).abs m) := by
  have hn : (guards x.lock).writer = none := by rw [guards, h]; rfl
  refine does_lock rfl (b := ⟨x.lock.readers, some (t, false)⟩) (by rw [guards, hr, hw]; rfl) ?_
  simp only [Manager.exec, withLock_mgr, hn]
  exact congrArg (fun w => Except.ok (true, w)) (setMgr_guards ..)

theorem does_await (h : x.lock.readers = []) (hr : l.readers = x.lock.readers)
    (hw : l.writers.head? = some (t, true)) :
    ManagerThreads.exec m t .awaitReaders (x.abs m) =
      .ok ((), ({ x with lock := l } : Shared).abs m) := by
  have h0 : (guards x.lock).readers = [] := h
  refine does_lock rfl (b := ⟨[], some (t, true)⟩) (by rw [guards, hr, hw, h]) ?_
  simp only [Manager.exec, Manager.change, withLock_mgr, h0]
  exact congrArg (fun w => Except.ok ((), w)) (setMgr_guards ..)

theorem does_read (h : x.lock.writers = []) (hr : l.readers = t :: x.lock.readers)
    (hw : l.writers = x.lock.writers) :
    ManagerThreads.exec m t .read (x.abs m) = .ok ((), ({ x with lock := l } : Shared).abs m) := by
  have hn : (guards x.lock).writer = none := by rw [guards, h]; rfl
  refine does_lock rfl (b := ⟨t :: x.lock.readers, none⟩) (by rw [guards, hr, hw, h]; rfl) ?_
  simp only [Manager.exec, Manager.change, withLock_mgr, hn]
  exact congrArg (fun w => Except.ok ((), w)) (setMgr_guards ..)

theorem does_dropRead (hr : l.readers = x.lock.readers.erase t) (hw : l.writers = x.lock.writers) :
    ManagerThreads.exec m t .dropRead (x.abs m) =
      .ok ((), ({ x with lock := l } : Shared).abs m) := by
  refine does_lock rfl (b := ⟨x.lock.readers.erase t, x.lock.writers.head?⟩)
    (by rw [guards, hr, hw]) ?_
  simp only [Manager.exec, Manager.change, withLock_mgr]
  exact congrArg (fun w => Except.ok ((), w)) (setMgr_guards ..)

theorem does_dropWrite (hr : l.readers = x.lock.readers) (hw : l.writers = []) :
    ManagerThreads.exec m t .dropWrite (x.abs m) =
      .ok ((), ({ x with lock := l } : Shared).abs m) := by
  refine does_lock rfl (b := ⟨x.lock.readers, none⟩) (by rw [guards, hr, hw]; rfl) ?_
  simp only [Manager.exec, Manager.change, withLock_mgr]
  exact congrArg (fun w => Except.ok ((), w)) (setMgr_guards ..)

/-- Any other step does the same. -/
theorem does_plain {o : ops.Op} (ho : Locks o = false) :
    ManagerThreads.exec m t o (x.abs m) = (ManagerThreads.exec m t o x.clients).map fun y =>
      (y.1, ({ x with clients := y.2 } : Shared).abs m) := by
  simp only [ManagerThreads.exec, Shared.abs, exec_withLock ho]
  cases Manager.exec m t o x.clients.world with
  | error e => rfl
  | ok y => rfl

end

/-! ## The code of the lock -/

/-- Nodes are visited under a read guard, and the table is cleaned up under the write guard. -/
def Safe (t : Nat) : sig.Op → Shared → Prop
  | .manager o _, x => (o.Cleans → (t, true) ∈ x.lock.writers) ∧
      (ManagerThreads.Visits o → t ∈ x.lock.readers)
  | .word _, _ => True

/-- How thread `t` is matched.  While its loop goes round, nothing happens to the guards. -/
def logic (m t : Nat) (room : ManagerThreads.Shared → Prop) :
    Match sig ops Shared ManagerThreads.Shared where
  exec := exec m t
  rely x x' := RwWPre.Inv x'.lock ∧ RwWPre.Keeps t x.lock x'.lock
  guar x x' := RwWPre.Guar t x.lock x'.lock
  safe := Safe t
  stops e := e = .spin
  fits x := RwWPre.Fits x.lock ∧ room (x.abs m)
  abs := Shared.abs m
  does := ManagerThreads.exec m t
  room := room

section
variable {m t : Nat} {room : ManagerThreads.Shared → Prop} {α : Type} {x : Shared} {q : Prog ops Ret}

theorem sim_load {Q : UInt64 → Prog ops Ret → Shared → Prop}
    (h : ∀ x' : Shared, RwWPre.Inv x'.lock → RwWPre.Keeps t x.lock x'.lock → room (x'.abs m) →
      ∃ q', Goes (ManagerThreads.exec m t) room q (x'.abs m) q' (x'.abs m) ∧ Q x'.lock.state q' x') :
    sim ((logic m t room).pull word) (Prog.op (S := RwWPre.sig) .load) q Q x := by
  intro x' hr
  exact .of_ok trivial rfl fun hf => ⟨.same rfl rfl rfl, h x' hr.1 hr.2 hf.2⟩

theorem sim_spin {Q : α → Prog ops Ret → Shared → Prop} :
    sim ((logic m t room).pull word) (RwWPre.spinLoop : Prog RwWPre.sig α) q Q x := by
  intro x' _
  exact .of_error trivial rfl (Or.inl rfl)

/-- An exchange either succeeds, on the word it expects, or changes nothing. -/
theorem sim_exchange {site : Site} {s : UInt64} {Q : Bool × UInt64 → Prog ops Ret → Shared → Prop}
    (hok : ∀ (x' : Shared) (rest : Nat → Bool), RwWPre.Inv x'.lock → RwWPre.Keeps t x.lock x'.lock → x'.lock.state = s →
      let l := site.grant t { x'.lock with state := site.desired s, weak := rest }
      RwWPre.Fits l → room (({ x' with lock := l } : Shared).abs m) →
        RwWPre.Guar t x'.lock l ∧ ∃ q', Goes (ManagerThreads.exec m t) room q (x'.abs m) q'
          (({ x' with lock := l } : Shared).abs m) ∧ Q (true, s) q' { x' with lock := l })
    (hno : ∀ (x' : Shared) (rest : Nat → Bool), RwWPre.Inv x'.lock → RwWPre.Keeps t x.lock x'.lock → room (x'.abs m) →
      ∃ q', Goes (ManagerThreads.exec m t) room q (x'.abs m) q' (x'.abs m) ∧
        Q (false, x'.lock.state) q' { x' with lock := { x'.lock with weak := rest } }) :
    sim ((logic m t room).pull word) (Prog.op (S := RwWPre.sig) (.exchange site s)) q Q x := by
  rintro x' ⟨hinv, hk⟩
  by_cases h : x'.lock.state = s ∧ x'.lock.weak 0 = false
  · have he : ((logic m t room).pull word).exec (.exchange site s) x' = .ok ((true, s),
        ⟨x'.clients, site.grant t
          { x'.lock with state := site.desired s, weak := fun i => x'.lock.weak (i + 1) }⟩) := by
      simp only [Match.pull, logic, word, exec, RwWPre.exec, if_pos h]
    exact .of_ok trivial he fun hf => hok x' _ hinv hk h.1 hf.1 hf.2
  · have he : ((logic m t room).pull word).exec (.exchange site s) x' = .ok ((false, x'.lock.state),
        { x' with lock := { x'.lock with weak := fun i => x'.lock.weak (i + 1) } }) := by
      simp only [Match.pull, logic, word, exec, RwWPre.exec, if_neg h]
    exact .of_ok trivial he fun hf => ⟨.same rfl rfl rfl, hno x' _ hinv hk hf.2⟩

/-- `read` takes its guard at the exchange that succeeds. -/
theorem sim_read {k : ops.Res .read → Prog ops Ret} (n : Nat) (x : Shared) :
    sim ((logic m t room).pull word) (RwWPre.read n) (.step Manager.Op.read k)
      (fun _ q x' => q = k () ∧ t ∈ x'.lock.readers) x := by
  induction n generalizing x with
  | zero => exact sim_spin
  | succ n ih =>
    unfold RwWPre.read
    refine sim_seq (P := fun _ q _ => q = .step Manager.Op.read k)
      (sim_load fun x' _ _ _ => ⟨_, .refl .., rfl⟩) fun s q x₁ hq => ?_
    subst hq
    refine sim_ite _ (fun _ => ih x₁) fun h0 => ?_
    rw [ne_eq, not_not, RwWPre.writerBits_eq_zero] at h0
    refine sim_seq (P := fun (r : Bool × UInt64) q (x' : Shared) => if r.1 = true then q = k () ∧ t ∈ x'.lock.readers
      else q = .step Manager.Op.read k) (sim_exchange ?_ fun x' _ _ _ _ => ⟨_, .refl .., rfl⟩)
      fun r q x₂ h2 => ?_
    · rintro x' rest hinv hk rfl l hf hroom
      have hfree := hinv.free_iff.mp h0
      exact ⟨RwWPre.guar_casRead h0 rfl rfl rfl hf, k (), .one (does_read hfree rfl rfl) hroom,
        rfl, List.mem_cons_self⟩
    · refine sim_ite _ (fun hr => ?_) fun hr => ?_
      · rw [if_pos hr] at h2
        exact h2
      · rw [if_neg hr] at h2
        subst h2
        exact ih x₂

/-- The second loop of `try_write` takes the write guard. -/
theorem sim_awaitReaders {k : ops.Res .awaitReaders → Prog ops Ret} (n : Nat) (x : Shared)
    (ht : (t, false) ∈ x.lock.writers) :
    sim ((logic m t room).pull word) (RwWPre.awaitReaders n) (.step Manager.Op.awaitReaders k)
      (fun ok q x' => ok = true ∧ q = k () ∧ (t, true) ∈ x'.lock.writers) x := by
  induction n generalizing x with
  | zero => exact sim_spin
  | succ n ih =>
    unfold RwWPre.awaitReaders
    refine sim_seq (P := fun _ q x' => q = .step Manager.Op.awaitReaders k ∧
      (t, false) ∈ x'.lock.writers)
      (sim_load fun x' _ hk _ => ⟨_, .refl .., rfl, hk.writers _ ht⟩) fun s q x₁ h1 => ?_
    obtain ⟨rfl, ht1⟩ := h1
    refine sim_ite _ (fun h0 => ?_) fun _ => ih x₁ ht1
    refine sim_seq (P := fun (r : Bool × UInt64) q (x' : Shared) => if r.1 = true then q = k () ∧ (t, true) ∈ x'.lock.writers
      else q = .step Manager.Op.awaitReaders k ∧ (t, false) ∈ x'.lock.writers)
      (sim_exchange ?_ fun x' _ _ hk _ => ⟨_, .refl .., rfl, hk.writers _ ht1⟩) fun r q x₂ h2 => ?_
    · rintro x' rest hinv hk rfl l - hroom
      have ht' := hk.writers _ ht1
      have hlen : x'.lock.readers.length = 0 := by
        rw [← hinv.count]
        exact (RwWPre.shift_eq_zero _).mp h0
      have hnil : x'.lock.readers = [] := List.eq_nil_of_length_eq_zero hlen
      exact ⟨RwWPre.guar_casLocked hinv ht' h0 rfl rfl rfl, k (),
        .one (does_await hnil rfl rfl) hroom, rfl, List.mem_cons_self⟩
    · refine sim_ite _ (fun hr => ?_) fun hr => ?_
      · rw [if_pos hr] at h2
        exact ⟨rfl, h2⟩
      · rw [if_neg hr] at h2
        obtain ⟨rfl, ht2⟩ := h2
        exact ih x₂ ht2

/-- What is left of the abstract program when the word `s` has been seen: where it shows a writer's
bit, `try_write` has failed. -/
def seen (k : ops.Res .tryPending → Prog ops Ret) (s : UInt64) : Prog ops Ret :=
  if s &&& (RwWPre.WRITE_LOCKED ||| RwWPre.WRITE_PENDING) ≠ 0 then k false
  else .step Manager.Op.tryPending k

theorem goes_seen {k : ops.Res .tryPending → Prog ops Ret} (hinv : RwWPre.Inv x.lock)
    (hroom : room (x.abs m)) :
    Goes (ManagerThreads.exec m t) room (.step Manager.Op.tryPending k) (x.abs m)
      (seen k x.lock.state) (x.abs m) := by
  unfold seen
  split
  · next h =>
    rw [ne_eq, RwWPre.writerBits_eq_zero, hinv.free_iff] at h
    exact .one (does_busy h) hroom
  · exact .refl ..

/-- `try_write` fails when it sees a writer's bit, and has both guards one after the other when it
succeeds. -/
theorem sim_takePending {k : ops.Res .tryPending → Prog ops Ret}
    {k' : ops.Res .awaitReaders → Prog ops Ret} (hk : k true = .step Manager.Op.awaitReaders k')
    (n : Nat) (s : UInt64) (x : Shared) :
    sim ((logic m t room).pull word) (RwWPre.takePending n s) (seen k s)
      (fun ok q x' => if ok = true then q = k' () ∧ (t, true) ∈ x'.lock.writers else q = k false)
      x := by
  induction n generalizing s x with
  | zero => exact sim_spin
  | succ n ih =>
    unfold RwWPre.takePending
    refine sim_ite _ (fun h0 => if_pos h0) fun h0 => ?_
    rw [seen, if_neg h0]
    rw [ne_eq, not_not, RwWPre.writerBits_eq_zero] at h0
    refine sim_seq (P := fun (r : Bool × UInt64) q (x' : Shared) => if r.1 = true then
        q = .step Manager.Op.awaitReaders k' ∧ (t, false) ∈ x'.lock.writers else q = seen k r.2)
      (sim_exchange ?_ fun x' _ hinv _ hroom => ⟨_, goes_seen hinv hroom, rfl⟩) fun r q x₁ h1 => ?_
    · rintro x' rest hinv - rfl l - hroom
      have hfree := hinv.free_iff.mp h0
      exact ⟨RwWPre.guar_casPending h0 rfl rfl rfl, k true, .one (does_pending hfree rfl rfl) hroom,
        hk, List.mem_cons_self⟩
    · refine sim_ite _ (fun hr => ?_) fun hr => ?_
      · rw [if_pos hr] at h1
        obtain ⟨rfl, ht⟩ := h1
        refine sim_mono ?_ (sim_awaitReaders n x₁ ht)
        rintro ok q x' ⟨rfl, h⟩
        exact h
      · rw [if_neg hr] at h1
        subst h1
        exact ih r.2 x₁

theorem sim_tryWrite {k : ops.Res .tryPending → Prog ops Ret}
    {k' : ops.Res .awaitReaders → Prog ops Ret} (hk : k true = .step Manager.Op.awaitReaders k')
    (n : Nat) (x : Shared) :
    sim ((logic m t room).pull word) (RwWPre.tryWrite n) (.step Manager.Op.tryPending k)
      (fun ok q x' => if ok = true then q = k' () ∧ (t, true) ∈ x'.lock.writers else q = k false)
      x := by
  unfold RwWPre.tryWrite
  refine sim_seq (P := fun s q _ => q = seen k s)
    (sim_load fun x' hinv _ hroom => ⟨_, goes_seen hinv hroom, rfl⟩) fun s q x₁ hq => ?_
  subst hq
  exact sim_takePending hk n s x₁

theorem sim_dropRead {k : ops.Res .dropRead → Prog ops Ret} (x : Shared) (ht : t ∈ x.lock.readers) :
    sim ((logic m t room).pull word) RwWPre.dropRead (.step Manager.Op.dropRead k)
      (fun _ q _ => q = k ()) x := by
  intro x' hr
  have hg : RwWPre.Guar t x'.lock { x'.lock with
      state := x'.lock.state - RwWPre.READER_ONE, readers := x'.lock.readers.erase t } :=
    RwWPre.guar_fetchSub (hr.2.mem ht) rfl rfl rfl
  exact .of_ok trivial rfl fun hf => ⟨hg, k (), .one (does_dropRead rfl rfl) hf.2, rfl⟩

theorem sim_dropWrite {k : ops.Res .dropWrite → Prog ops Ret} (x : Shared)
    (ht : (t, true) ∈ x.lock.writers) :
    sim ((logic m t room).pull word) RwWPre.dropWrite (.step Manager.Op.dropWrite k)
      (fun _ q _ => q = k ()) x := by
  intro x' hr
  have hw := (RwWPre.mem_writers_locked hr.1 (hr.2.writers _ ht)).1
  have hnil : x'.lock.writers.erase (t, true) = [] := by rw [hw, List.erase_cons_head]
  exact .of_ok trivial rfl fun hf => ⟨RwWPre.guar_fetchAnd hr.1 (hr.2.writers _ ht) rfl rfl rfl, k (),
    .one (does_dropWrite rfl hnil) hf.2, rfl⟩

end

/-! ## The calls -/

/-- The guard that a thread has in a stage; `try_write` returns with the write guard. -/
def Stage.Has (t : Nat) : Stage → Lock Nat → Prop
  | .outside, _ => True
  | .reading, l => t ∈ l.readers
  | .pending, l | .writing, l => (t, true) ∈ l.writers

/-- When `try_write` has returned, its second half is behind the thread. -/
def behind : Stage → Prog ops Ret → Prog ops Ret
  | .pending, .step .awaitReaders k => k ()
  | _, p => p

theorem behind_of_ne {st : Stage} (h : st ≠ .pending) (p : Prog ops Ret) : behind st p = p := by
  cases st with
  | pending => exact absurd rfl h
  | _ => rfl

theorem Stage.Has.keep {t : Nat} {st : Stage} {l l' : Lock Nat} (h : st.Has t l)
    (hk : RwWPre.Keeps t l l') : st.Has t l' := by
  cases st with
  | outside => trivial
  | reading => exact hk.mem h
  | pending | writing => exact hk.writers true h

theorem allowed_safe {t : Nat} {o : ops.Op} {st : Stage} {x : Shared} (h : allowed o st = true)
    (hst : st.Has t x.lock) : Safe t (.manager o (allowed_plain h).1) x := by
  constructor
  · intro ho
    have hw : st = .writing := by
      cases o with
      | clean _ | notInvalidate | notGrow | invalidate _ | grow _ => exact of_decide_eq_true h
      | _ => exact ho.elim
    subst hw
    exact hst
  · intro ho
    have hr : st = .reading := by
      cases o with
      | acc o =>
        cases o with
        | level _ | low _ | high _ | fetchAdd _ => exact of_decide_eq_true h
        | _ => exact ho.elim
      | makeNode _ _ _ | notGet _ _ | notInsert _ _ _ | get _ _ _ | insert _ _ _ _ =>
        exact of_decide_eq_true h
      | _ => exact ho.elim
    subst hr
    exact hst

section
variable {m t : Nat} {room : ManagerThreads.Shared → Prop}

theorem impl_plain {o : ops.Op} (ho : Locks o = false) (n : Nat) :
    impl n o = Prog.op (S := sig) (.manager o ho) := by
  have hne : ¬ Locks o = true := by
    rw [ho]
    exact Bool.false_ne_true
  exact dif_neg hne

/-- Who is pending goes on to wait for the readers. -/
theorem follows_pending {p : Prog ops Ret} (h : p.Follows turn .pending fun _ y => y = .outside) :
    ∃ k, p = .step Manager.Op.awaitReaders k := by
  cases p with
  | ret a => cases h
  | step o k =>
    obtain ⟨f, hf, -⟩ := h
    cases o with
    | awaitReaders => exact ⟨k, rfl⟩
    | tryPending | dropWrite | read | dropRead => cases hf
    | _ => exact absurd rfl (allowed_plain (turn_plain rfl hf).1).2

/-- A step that leaves the lock alone is one step on either side. -/
theorem sim_plain {α : Type} {o : ops.Op} {st : Stage} (ho : allowed o st = true)
    {k : ops.Res o → Prog ops Ret} {n : Nat} {f : ops.Res o → Prog sig α}
    {Q : α → Prog ops Ret → Shared → Prop} {x : Shared} (hst : st.Has t x.lock)
    (h : ∀ r x', st.Has t x'.lock → sim (logic m t room) (f r) (k r) Q x') :
    sim (logic m t room) ((impl n o).bind f) (.step o k) Q x := by
  obtain ⟨hl, -⟩ := allowed_plain ho
  rw [impl_plain hl]
  intro x' hr
  have hd := does_plain (m := m) (t := t) (x := x') hl
  have hsafe := allowed_safe ho (hst.keep hr.2)
  cases he : ManagerThreads.exec m t o x'.clients with
  | ok y =>
    have he' : (logic m t room).exec (.manager o hl) x' = .ok (y.1, { x' with clients := y.2 }) := by
      simp only [logic, exec, he]
    rw [he] at hd
    exact .of_ok hsafe he' fun hf =>
      ⟨.same rfl rfl rfl, k y.1, .one hd hf.2, h y.1 _ (hst.keep hr.2)⟩
  | error e =>
    have he' : (logic m t room).exec (.manager o hl) x' = .error e := by
      simp only [logic, exec, he]
    rw [he] at hd
    exact .of_error hsafe he' (Or.inr ⟨o, k, rfl, hd⟩)

/-- A call over the word is matched by the same call over the guards. -/
theorem sim_expand (n : Nat) (p : Prog ops Ret) : ∀ (st : Stage) (x : Shared),
    p.Follows turn st (fun _ y => y = .outside) → st.Has t x.lock →
    sim (logic m t room) (p.expand (impl n)) (behind st p) (fun a q _ => q = .ret a) x := by
  induction p with
  | ret a =>
    rintro st x rfl -
    rfl
  | step o k ih =>
    intro st x hp hst
    obtain ⟨f, hturn, hk⟩ := hp
    by_cases ho : Locks o = false
    · obtain ⟨hall, rfl⟩ := turn_plain ho hturn
      have hne := (allowed_plain hall).2
      rw [behind_of_ne hne]
      refine sim_plain hall hst fun r x' hst' => ?_
      have hnext := ih r st x' (hk r) hst'
      rwa [behind_of_ne hne] at hnext
    · cases o with
      | tryPending =>
        cases st with
        | outside =>
          obtain rfl := Option.some.inj hturn
          have htrue := hk true
          obtain ⟨k', hk'⟩ := follows_pending htrue
          refine sim_bind (sim_lift (sim_mono ?_ (sim_tryWrite hk' n x)))
          intro ok q x' h
          cases ok with
          | false =>
            rw [if_neg Bool.false_ne_true] at h
            subst h
            exact ih false .outside x' (hk false) trivial
          | true =>
            obtain ⟨rfl, ht⟩ := h
            have hnext := ih true .pending x' htrue ht
            rw [hk'] at hnext ⊢
            exact hnext
        | reading | pending | writing => cases hturn
      | awaitReaders =>
        cases st with
        | pending =>
          obtain rfl := Option.some.inj hturn
          exact ih () .writing x (hk ()) hst
        | outside | reading | writing => cases hturn
      | read =>
        cases st with
        | outside =>
          obtain rfl := Option.some.inj hturn
          refine sim_bind (sim_bind (sim_lift (sim_mono ?_ (sim_read n x))))
          rintro ok q x' ⟨rfl, ht⟩
          exact ih () .reading x' (hk ()) ht
        | reading | pending | writing => cases hturn
      | dropRead =>
        cases st with
        | reading =>
          obtain rfl := Option.some.inj hturn
          refine sim_bind (sim_bind (sim_lift (sim_mono ?_ (sim_dropRead x hst))))
          rintro ok q x' rfl
          exact ih () .outside x' (hk ()) trivial
        | outside | pending | writing => cases hturn
      | dropWrite =>
        cases st with
        | writing =>
          obtain rfl := Option.some.inj hturn
          refine sim_bind (sim_bind (sim_lift (sim_mono ?_ (sim_dropWrite x hst))))
          rintro ok q x' rfl
          exact ih () .outside x' (hk ()) trivial
        | outside | reading | pending => cases hturn
      | _ => exact absurd rfl ho

end
/-! ## Every run -/

/-- Fewer than `2^62` read guards at a time, and `room` for the rest. -/
def Fits (m : Nat) (room : ManagerThreads.Shared → Prop) (x : Shared) : Prop :=
  RwWPre.Fits x.lock ∧ room (x.abs m)

def refinement (g : Consts) (m n : Nat) (room : ManagerThreads.Shared → Prop) :
    Refinement (words g m n) (Fits m room) (clients g m n) room where
  abs := Shared.abs m
  inv x := RwWPre.Inv x.lock
  rely t x x' := RwWPre.Inv x'.lock ∧ RwWPre.Keeps t x.lock x'.lock
  guar t x x' := RwWPre.Guar t x.lock x'.lock
  safe := Safe
  stops e := e = .spin
  idle _ _ := True
  post _ _ a q _ := q = .ret a
  rely_refl t x h := ⟨h, .refl t x.lock⟩
  rely_trans _ _ _ _ h1 h2 := ⟨h2.1, h1.2.trans h2.2⟩
  guar_inv _ _ _ h hg := hg.inv h
  guar_rely _ u _ _ h hg hne := ⟨hg.inv h, hg.keeps u (Ne.symm hne)⟩
  idle_stable _ _ _ _ _ := trivial
  post_stable _ _ _ _ _ _ h _ := h
  call t c k x _ _ hl hf := by
    have hlegal : (clients g m n).legal t c (x.abs m) := by
      cases c with
      | op c => exact hl
      | gc => trivial
      | derefBdd a => exact hl
      | hand a u => exact hl
    have henter : Shared.abs m ((words g m n).enter t c x) = (clients g m n).enter t c (x.abs m) := by
      cases c <;> rfl
    exact ⟨.same rfl rfl rfl, hlegal, henter, hf.2, 0,
      sim_expand k _ .outside _ (paced_code g n c) trivial⟩
  leave t c a q x _ hq hf := by
    subst hq
    exact ⟨.same rfl rfl rfl, trivial, .refl .., rfl, hf.2⟩

section
variable {g : Consts} {m n : Nat} {room : ManagerThreads.Shared → Prop} {x₀ : ManagerThreads.Shared}
  {s : Conf sig Shared Nat Call Ret}

theorem abs_new (hfree : x₀.lock m = ⟨[], none⟩) (weak : Nat → Bool) :
    Shared.abs m ⟨x₀, RwWPre.new weak⟩ = x₀ := by
  have hw : x₀.world.withLock m ⟨[], none⟩ = x₀.world := by
    rw [← hfree]
    exact withLock_self ..
  show (⟨x₀.world.withLock m ⟨[], none⟩, x₀.refs⟩ : ManagerThreads.Shared) = x₀
  rw [hw]

/-- Each run has a run over the guards next to it, joined at every point. -/
theorem joined (hfree : x₀.lock m = ⟨[], none⟩) (weak : Nat → Bool) {h : List (Event Nat Call Ret)}
    (hs : (words g m n).Runs (Fits m room) ⟨x₀, RwWPre.new weak⟩ h s) :
    ∃ s', (clients g m n).Runs room x₀ h s' ∧ (refinement g m n room).Joined s s' := by
  have h0 : (refinement g m n room).inv ⟨x₀, RwWPre.new weak⟩ := RwWPre.inv_new weak
  obtain ⟨s', hs', hj⟩ := (refinement g m n room).sound h0 (fun _ => trivial) hs
  have habs : (refinement g m n room).abs ⟨x₀, RwWPre.new weak⟩ = x₀ := abs_new hfree weak
  rw [habs] at hs'
  exact ⟨s', hs', hj⟩

/-- **The word does what the guards say.**  With fewer than `2^62` read guards at a time, every run
of the clients over the code of the lock is a run over its guards: the same calls and returns in the
same order, the same memory, references and guards, the same threads inside calls; and a step that
panics or faults, panics or faults there. -/
theorem word_refines (hfree : x₀.lock m = ⟨[], none⟩) (weak : Nat → Bool)
    {h : List (Event Nat Call Ret)}
    (hs : (words g m n).Runs (Fits m room) ⟨x₀, RwWPre.new weak⟩ h s) :
    ∃ s', (clients g m n).Runs room x₀ h s' ∧ s'.world = s.world.abs m ∧
      (∀ t, s.pc t = none ↔ s'.pc t = none) ∧
      (∀ t c r, s.pc t = some (c, .ret r) → s'.pc t = some (c, .ret r)) ∧
      ∀ t c o k e, s.pc t = some (c, .step o k) → exec m t o s.world = .error e → e ≠ .spin →
        ∃ o' k', s'.pc t = some (c, .step o' k') ∧
          ManagerThreads.exec m t o' s'.world = .error e := by
  obtain ⟨s', hs', hj⟩ := joined hfree weak hs
  refine ⟨s', hs', hj.world, fun t => ?_, fun t c r hpc => ?_, fun t c o k e hpc hex he => ?_⟩
  · have ht := hj.pc t
    cases hp : s.pc t with
    | none =>
      rw [hp] at ht
      cases hp' : s'.pc t with
      | none => simp
      | some q =>
        rw [hp'] at ht
        cases ht
    | some p =>
      rw [hp] at ht
      cases hp' : s'.pc t with
      | none =>
        rw [hp'] at ht
        cases ht
      | some q => simp
  · obtain ⟨q, hq, rfl⟩ := hj.returned hpc
    exact hq
  · exact ((hj.does hpc).2 e hex).resolve_left he

/-- Nobody has a guard of a new manager. -/
theorem Starts.free {m : Nat} {x : ManagerThreads.Shared} (h : ManagerThreads.Starts m x) :
    x.lock m = ⟨[], none⟩ := by
  obtain ⟨w, t, tableSize, cacheSize, varNum, k, hw, hinit, -⟩ := h
  rcases Manager.run_init hw.resting.inv (hw.made m) t tableSize cacheSize varNum k with
    ⟨w', hrun, hfd⟩ | ⟨e, hrun, -⟩
  · obtain rfl := Except.ok.inj (hrun.symm.trans hinit)
    exact hfd.idle
  · cases hrun.symm.trans hinit

/-- Thread 0 has begun to collect: it has loaded the word and set `WRITE_PENDING`. -/
theorem word_refines_gc : ∃ s : Conf sig Shared Nat Call Ret, s.world.lock.writers = [(0, false)] ∧
    ∃ s', (clients (Manager.fresh.consts 0) 0 60).Runs (fun _ => True) ⟨Manager.fresh, []⟩
        [.call 0 .gc] s' ∧ s'.world = s.world.abs 0 ∧
      (∀ t, s.pc t = none ↔ s'.pc t = none) ∧
      (∀ t c r, s.pc t = some (c, .ret r) → s'.pc t = some (c, .ret r)) ∧
      ∀ t c o k e, s.pc t = some (c, .step o k) → exec 0 t o s.world = .error e → e ≠ .spin →
        ∃ o' k', s'.pc t = some (c, .step o' k') ∧
          ManagerThreads.exec 0 t o' s'.world = .error e := by
  have hfits : ∀ x : Shared, x.lock.readers = [] → Fits 0 (fun _ => True) x := by
    intro x hx
    refine ⟨?_, trivial⟩
    unfold RwWPre.Fits
    rw [hx]
    simp
  have h0 : (words (Manager.fresh.consts 0) 0 60).Runs (Fits 0 fun _ => True)
      ⟨⟨Manager.fresh, []⟩, RwWPre.new fun _ => false⟩ [] _ := .init
  have h1 := h0.call 0 Call.gc 1 rfl trivial (hfits _ rfl)
  have h2 := h1.exec 0 Call.gc (Op.word .load) _ (0 : UInt64) _ rfl rfl (hfits _ rfl)
  have h3 := h2.exec 0 Call.gc (Op.word (.exchange .pending 0)) _ (true, (0 : UInt64)) _ rfl rfl
    (hfits _ rfl)
  exact ⟨_, rfl, word_refines (Starts.free ManagerThreads.fresh_starts) _ h3⟩

/-- What holds of a configuration of the threads over the word of the lock. -/
structure Secure (g : Consts) (m : Nat) (s : Conf sig Shared Nat Call Ret) : Prop where
  /-- who marks, sweeps, unmarks or grows has the only guard there is -/
  cleans : ∀ t c o h k, s.pc t = some (c, .step (.manager o h) k) → o.Cleans →
    s.world.lock.writers = [(t, true)] ∧ s.world.lock.readers = []
  /-- an operation comes to its nodes under a read guard -/
  visits : ∀ t c o h k, s.pc t = some (c, .step (.manager o h) k) → ManagerThreads.Visits o →
    t ∈ s.world.lock.readers
  /-- what a thread holds is in memory -/
  held : ∀ t a, s.world.clients.Holds g t a → s.world.clients.world.heap.Has a
  /-- an operation returns the function of its operands, referenced -/
  answers : ∀ t c r, s.pc t = some (.op c, .ret r) → ∃ b, r = .bdd b ∧
    (t, b) ∈ s.world.clients.refs ∧ ∃ F, c.Spec (fun a f => s.world.clients.Means g a f) F ∧
      s.world.clients.Means g b F
  /-- no step panics or comes to memory that is not allocated -/
  stuck : ∀ t c o k e, s.pc t = some (c, .step o k) → exec m t o s.world = .error e → e = .spin

/-- Threads share a manager that was just made, over the code of its lock.  As long as there are fewer
than `2^62` read guards at a time, the counts of references fit into 64 bits and the arrays can grow,
every configuration is secure. -/
theorem word_secure (h₀ : ManagerThreads.Starts m x₀)
    (hf : x₀.Fits (x₀.world.consts m) m n) (weak : Nat → Bool)
    (hs : (words (x₀.world.consts m) m n).Reach
      (Fits m (ManagerThreads.Shared.Fits (x₀.world.consts m) m n)) ⟨x₀, RwWPre.new weak⟩ s) :
    Secure (x₀.world.consts m) m s := by
  obtain ⟨h, hruns⟩ := hs.runs
  obtain ⟨s', hs', hj⟩ := joined (Starts.free h₀) weak hruns
  obtain ⟨hinv, hidle⟩ := h₀.inv hf
  obtain ⟨hi, hat⟩ := (ManagerThreads.proof _ m n).sound hinv hidle hs'.reach
  have hp : ManagerThreads.Proved (x₀.world.consts m) m n s' := ⟨hi, hat⟩
  have hworld : s'.world = s.world.abs m := hj.world
  have hlock : RwWPre.Inv s.world.lock := hj.inv
  have hi : ManagerThreads.Inv (x₀.world.consts m) m n (s.world.abs m) := hworld ▸ hi
  constructor
  · intro t c o ho k hpc hcleans
    have hsafe : Safe t (.manager o ho) s.world := (hj.does hpc).1
    obtain ⟨hw, hr, -⟩ := RwWPre.mem_writers_locked hlock (hsafe.1 hcleans)
    exact ⟨hw, hr⟩
  · intro t c o ho k hpc hvisits
    have hsafe : Safe t (.manager o ho) s.world := (hj.does hpc).1
    exact hsafe.2 hvisits
  · intro t a ha
    have ha' : (s.world.abs m).Holds (x₀.world.consts m) t a := ha
    exact hi.has a (ManagerThreads.holds_count ha')
  · intro t c r hpc
    obtain ⟨q, hq, rfl⟩ := hj.returned hpc
    obtain ⟨b, hb, hown, hspec⟩ := hp.returns hq
    rw [hworld] at hown hspec
    exact ⟨b, hb, hown, hspec⟩
  · intro t c o k e hpc hex
    rcases (hj.does hpc).2 e hex with he | ⟨o', k', hpc', hex'⟩
    · exact he
    · exact ((hp.safe hpc').stuck e hex').1

end

/-- Threads on the manager that was just made, in the order of a schedule. -/
def play (l : List (Nat × Turn Call)) :
    Option (List (Event Nat Call Ret) × Conf sig Shared Nat Call Ret) :=
  (words (fresh.consts 0) 0 60).follow (fun t c x => decide (c.Legal (fresh.consts 0) t x.clients))
    (fun x => decide (x.lock.readers.length < 2 ^ 62 ∧ ManagerThreads.Small 0 60 (x.abs 0))) l []
    ⟨⟨⟨fresh, []⟩, RwWPre.new fun _ => false⟩, fun _ => none⟩

theorem play_runs {l : List (Nat × Turn Call)} {h : List (Event Nat Call Ret)}
    {s : Conf sig Shared Nat Call Ret} (hrun : play l = some (h, s)) :
    (words (fresh.consts 0) 0 60).Runs (Fits 0 (ManagerThreads.Shared.Fits (fresh.consts 0) 0 60))
      ⟨⟨fresh, []⟩, RwWPre.new fun _ => false⟩ h s := by
  refine System.Runs.follow .init ?_ ?_ l hrun
  · exact fun t c x hl => (of_decide_eq_true hl : c.Legal (fresh.consts 0) t x.clients)
  · intro x hx
    obtain ⟨hlock, hsmall⟩ := of_decide_eq_true hx
    exact ⟨hlock, hsmall.fits⟩

/-- Thread 3 drops a disjunction.  The collector of thread 1 has set `WRITE_PENDING` and waits for
thread 0, which is in a conjunction; thread 2 waits for the collector.  Thread 0 drops its guard, and
the disjunction is freed. -/
def pressing : List (Nat × Turn Call) :=
  (3, .call (.op (.or x0 x1)) 9) :: List.replicate 15 (3, .go) ++
  (3, .call (.derefBdd 7) 9) :: List.replicate 2 (3, .go) ++
  (0, .call (.op (.and x0 x1)) 9) :: List.replicate 12 (0, .go) ++
  (1, .call .gc 9) :: List.replicate 4 (1, .go) ++
  (2, .call (.op (.or x0 x1)) 9) :: List.replicate 4 (2, .go) ++
  List.replicate 2 (0, .go) ++ List.replicate 116 (1, .go)

theorem pressing_run : ∃ x ∈ play pressing,
    x.2.returning 0 = some (.op (.and x0 x1), .bdd 9) ∧ x.2.world.lock.writers = [(1, true)] ∧
    (x.2.next 1).isSome ∧ (x.2.next 2).isSome ∧ ¬ x.2.world.clients.world.heap.Has 7 := by
  decide +kernel

/-- The collector has the write guard and has freed a node; an operation is about to return, and
another one waits. -/
theorem word_secure_pressing : ∃ s : Conf sig Shared Nat Call Ret,
    s.returning 0 = some (.op (.and x0 x1), .bdd 9) ∧ s.world.lock.writers = [(1, true)] ∧
    s.next 1 ≠ none ∧ s.next 2 ≠ none ∧ ¬ s.world.clients.world.heap.Has 7 ∧
    Secure (fresh.consts 0) 0 s := by
  obtain ⟨⟨h, s⟩, hrun, hret, hwriters, h1, h2, hfree⟩ := pressing_run
  refine ⟨s, hret, hwriters, Option.isSome_iff_ne_none.mp h1, Option.isSome_iff_ne_none.mp h2, hfree, ?_⟩
  exact word_secure ManagerThreads.fresh_starts ManagerThreads.fresh_fits _ (play_runs hrun).reach

end Tobdd.LockWord
