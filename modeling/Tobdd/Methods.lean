import Tobdd.Set

/-!
# What the methods of the table do not touch

Only `grow` puts another array in place, and only `mark_nodes` says how many nodes are marked.
-/

namespace Tobdd

open Resume

/-- The accesses that put another array in place. -/
def Access.Resizes : Access → Prop
  | .setBuckets _ | .setSizeExp _ => True
  | _ => False

/-- The last access of `mark_nodes`. -/
def Access.Counts : Access → Prop
  | .setMarks _ => True
  | _ => False

/-- The other accesses. -/
def Access.Calm : Access → Prop
  | .setBuckets _ | .setSizeExp _ | .setMarks _ => False
  | _ => True

/-- The accesses of `get_or_insert`. -/
def Access.Seeks : Access → Prop
  | .load _ | .store (.next _) _ | .cas _ _ _ | .key _ | .hash _ | .sizeExp | .addEntry
  | .spinLoop => True
  | _ => False

theorem Access.Seeks.calm {o : Access} (h : o.Seeks) : o.Calm := by
  cases o with
  | setBuckets _ | setSizeExp _ | setMarks _ => exact h
  | _ => trivial

theorem Access.Calm.not_resizes {o : Access} (h : o.Calm) : ¬ o.Resizes := by
  intro hr
  cases o with
  | setBuckets _ | setSizeExp _ => exact h
  | _ => exact hr

theorem Access.Calm.not_counts {o : Access} (h : o.Calm) : ¬ o.Counts := by
  intro hc
  cases o with
  | setMarks _ => exact h
  | _ => exact hc

namespace LockFreeSet

variable {o : Access}

/-- `mark_nodes`, up to its assertion. -/
def countMarks (n : Nat) : Prog mem Nat := do
  let e : Nat ← acc .sizeExp
  Prog.forRange (shl64 e) (fun i counter => do
    let head : Bdd ← acc (.load (.head i))
    eachNode (markNode n) n head counter) 0

theorem markNodes_eq (n : Nat) : markNodes n = countMarks n >>= fun counter =>
    acc (.setMarks counter) >>= fun _ => return counter := rfl

theorem calm_acc (ho : o.Calm) : (acc o).Only Access.Calm := ⟨ho, fun _ => trivial⟩

theorem calm_eachNode {σ : Type} {body : Bdd → σ → Prog mem σ}
    (hbody : ∀ a x, (body a x).Only Access.Calm) : ∀ n a x,
    (eachNode body n a x).Only Access.Calm := by
  intro n
  induction n with
  | zero => exact fun _ _ => ⟨trivial, fun r => r.elim⟩
  | succ n ih =>
    exact fun a x => .ite _ trivial (.bind (hbody a x) fun x => .bind (calm_acc trivial) fun next => ih next x)

theorem seeks_acc (ho : o.Seeks) : (acc o).Only Access.Seeks := ⟨ho, fun _ => trivial⟩

theorem seeks_getOrInsert (p : Bdd) (n : Nat) :
    (getOrInsert p n).Only Access.Seeks := by
  have hwalk : ∀ key n prev curr,
      (walk key n prev curr).Only Access.Seeks := by
    intro key n
    induction n with
    | zero => exact fun _ _ => ⟨trivial, fun r => r.elim⟩
    | succ n ih =>
      refine fun prev curr => .ite _ trivial (.bind (seeks_acc trivial) fun key' => ?_)
      cases cmp key' key with
      | eq => trivial
      | gt => trivial
      | lt => exact .bind (seeks_acc trivial) fun next => ih _ next
  have hretry : ∀ key head n, (retry p key head n).Only Access.Seeks := by
    intro key head n
    induction n with
    | zero => exact ⟨trivial, fun r => r.elim⟩
    | succ n ih =>
      refine .bind (seeks_acc trivial) fun curr => .bind (hwalk key n head curr) fun x => ?_
      cases x with
      | equal a => trivial
      | between prev curr =>
        refine .bind (seeks_acc trivial) fun _ => .bind (seeks_acc trivial) fun ok => ?_
        exact .ite _ (.bind (seeks_acc trivial) fun _ => trivial) ih
  exact .bind (seeks_acc trivial) fun _ => .bind (seeks_acc trivial) fun _ => .bind (seeks_acc trivial) fun key =>
    hretry key _ n

theorem calm_getOrInsert (p : Bdd) (n : Nat) : (getOrInsert p n).Only Access.Calm :=
  (seeks_getOrInsert p n).mono fun _ ho => ho.calm

theorem calm_countMarks (n : Nat) : (countMarks n).Only Access.Calm := by
  have hrec : ∀ n a c, (markRec n a c).Only Access.Calm := by
    intro n
    induction n with
    | zero => exact fun _ _ => ⟨trivial, fun r => r.elim⟩
    | succ n ih =>
      refine fun a c => .bind (calm_acc trivial) fun _ => .ite _ trivial ?_
      refine .bind (calm_acc trivial) fun _ => .bind (calm_acc trivial) fun low => ?_
      refine .bind (calm_acc trivial) fun high => .bind (.ite _ (ih low _) trivial) fun c' => ?_
      exact .ite _ (ih high c') trivial
  refine .bind (calm_acc trivial) fun _ => .forRange fun i c => ?_
  refine .bind (calm_acc trivial) fun head => calm_eachNode (fun a c => ?_) n head c
  refine .bind (calm_acc trivial) fun _ => .ite _ (.bind (calm_acc trivial) fun _ => ?_) trivial
  exact .ite _ (hrec n a c) trivial

theorem calm_gcUnmarked (n : Nat) : (gcUnmarked n).Only Access.Calm := by
  have hsweep : ∀ n prev curr, (sweep n prev curr).Only Access.Calm := by
    intro n
    induction n with
    | zero => exact fun _ _ => ⟨trivial, fun r => r.elim⟩
    | succ n ih =>
      refine fun prev curr => .ite _ trivial (.bind (calm_acc trivial) fun _ => .ite _ ?_ ?_)
      · exact .bind (calm_acc trivial) fun next => .bind (calm_acc trivial) fun _ =>
          .bind (calm_acc trivial) fun _ => ih prev next
      · exact .bind (calm_acc trivial) fun next => ih _ next
  refine .bind (calm_acc trivial) fun _ => .bind (.forRange fun i _ => ?_) fun _ =>
    .bind (calm_acc trivial) fun _ => .bind (calm_acc trivial) fun _ => trivial
  exact .bind (calm_acc trivial) fun head => hsweep n _ head

theorem calm_unmarkNodes (n : Nat) :
    (unmarkNodes n).Only Access.Calm := by
  refine .bind (calm_acc trivial) fun _ => .forRange fun i _ => ?_
  refine .bind (calm_acc trivial) fun head => calm_eachNode (fun a _ => ?_) n head ()
  exact .bind (calm_acc trivial) fun _ => .ite _ (calm_acc trivial) trivial

theorem grow_uncounted (n : Nat) : (grow n).Only fun o => ¬ Access.Counts o := by
  have hacc : ∀ {o : Access}, ¬ o.Counts → (acc o).Only fun o => ¬ Access.Counts o := fun ho =>
    ⟨ho, fun _ => trivial⟩
  have hload : ∀ nb p, (loadNew nb p).Only fun o => ¬ Access.Counts o := by
    intro nb p
    cases p with
    | head i => trivial
    | next a => exact hacc id
  have hstore : ∀ nb b p, (storeNew nb b p).Only fun o => ¬ Access.Counts o := by
    intro nb b p
    cases p with
    | head i => trivial
    | next a => exact .bind (hacc id) fun _ => trivial
  have hscan : ∀ nb key n p curr, (scanNew nb key n p curr).Only fun o => ¬ Access.Counts o := by
    intro nb key n
    induction n with
    | zero => exact fun _ _ => ⟨id, fun r => r.elim⟩
    | succ n ih =>
      refine fun p curr => .ite _ trivial (.bind (hacc id) fun _ => .ite _ trivial ?_)
      exact .bind (hload ..) fun next => ih _ next
  have hmove : ∀ e n curr nb, (moveChain e n curr nb).Only fun o => ¬ Access.Counts o := by
    intro e n
    induction n with
    | zero => exact fun _ _ => ⟨id, fun r => r.elim⟩
    | succ n ih =>
      refine fun curr nb => .ite _ trivial (.bind (hacc id) fun next => .bind (hacc id) fun _ => ?_)
      refine .ite _ ⟨id, fun r => r.elim⟩ (.bind (hload ..) fun _ => .bind (hacc id) fun _ => ?_)
      refine .bind (hscan ..) fun x => .bind (hacc id) fun _ => ?_
      exact .bind (hstore ..) fun nb => ih next nb
  refine .bind (hacc id) fun _ => .bind (hacc id) fun _ => .bind (.forRange fun i nb => ?_) fun _ =>
    .bind (hacc id) fun _ => .bind (hacc id) fun _ => trivial
  exact .bind (hacc id) fun curr => hmove _ n curr nb

end LockFreeSet

end Tobdd
