import CanonJson.Plain.Walk
import CanonJson.Proofs.Value.Walk
/-!
# The walk through a graph is a recursion

Looking at an item does what the recursion `treeFrom` does while the same containers are open: it fails with
the same problem, or leaves exactly one more tree, closes what it opened and goes on with the tasks behind it.
So the walk of a whole graph ends with the tree of its root and nothing else, and it takes no more steps than
its size allows.
-/

namespace CanonJson

namespace Scalar

/-! ### Integers have a tree up to the longest that is written in one piece -/

theorem toValue_of_lt {n : Int} (h : n.natAbs < Nat.pow 10 Digits.limit) :
    (Scalar.int n).toValue = .ok (.number (Text.ofInt n)) := by
  have hdigits : Digits.ofIntBounded? n = some (Text.ofInt n) := if_pos h
  rw [toValue, hdigits, Option.elim]

theorem toValue_of_le {n : Int} (h : Nat.pow 10 Digits.limit ≤ n.natAbs) :
    (Scalar.int n).toValue = .error .integerTooLong := by
  have hdigits : Digits.ofIntBounded? n = Option.none := if_neg (Nat.not_lt.mpr h)
  rw [toValue, hdigits, Option.elim]

theorem toValue_int (n : Int) :
    (Scalar.int n).toValue = .ok (.number (Text.ofInt n)) ∨ (Scalar.int n).toValue = .error .integerTooLong :=
  (Nat.lt_or_ge n.natAbs (Nat.pow 10 Digits.limit)).imp toValue_of_lt toValue_of_le

end Scalar

/-- The container is a list or a tuple of the items. -/
def Cell.IsSequence {ρ : Type} (c : Cell ρ) (items : List (Item ρ)) : Prop :=
  c = .list items ∨ c = .tuple items

namespace Graph

variable {g : Graph}

/-- The tree of an item by recursion, while the given containers are open. -/
def treeFrom (g : Graph) (active : Vector Bool g.size) : Item (Fin g.size) → Except Problem Value
  | .scalar s => s.toValue
  | .cell i =>
    if _closed : active.get i = true then .error .circular
    else
      match g.cellAt i with
      | .list items => do return .array (← items.mapM fun x => treeFrom g (active.set i true i.isLt) x)
      | .tuple items => do return .array (← items.mapM fun x => treeFrom g (active.set i true i.isLt) x)
      | .set _ => .error (.datumType "set")
      | .table entries => do
        let keys ← entries.mapM fun e => g.keyText e.1
        return .object (keys.zip (← (entries.map Prod.snd).mapM fun x => treeFrom g (active.set i true i.isLt) x))
termination_by Walk.room active
decreasing_by
  all_goals
    have hroom := Walk.room_open _closed
    omega

/-- Induction along the recursion, with what it gives in each case. -/
@[elab_as_elim]
theorem treeFrom_induction {motive : Vector Bool g.size → Item (Fin g.size) → Except Problem Value → Prop}
    (scalar : ∀ active s, motive active (.scalar s) s.toValue)
    (circular : ∀ active i, active.get i = true → motive active (.cell i) (.error .circular))
    (array : ∀ active i items, ¬active.get i = true → (g.cellAt i).IsSequence items →
      (∀ x, motive (active.set i true i.isLt) x (g.treeFrom (active.set i true i.isLt) x)) →
      motive active (.cell i) (items.mapM (g.treeFrom (active.set i true i.isLt)) >>= fun vs => .ok (.array vs)))
    (set : ∀ active i items, ¬active.get i = true → g.cellAt i = .set items →
      motive active (.cell i) (.error (.datumType "set")))
    (object : ∀ active i entries, ¬active.get i = true → g.cellAt i = .table entries →
      (∀ x, motive (active.set i true i.isLt) x (g.treeFrom (active.set i true i.isLt) x)) →
      motive active (.cell i) (entries.mapM (fun e => g.keyText e.1) >>= fun keys =>
        (entries.map Prod.snd).mapM (g.treeFrom (active.set i true i.isLt)) >>= fun vs => .ok (.object (keys.zip vs))))
    (active : Vector Bool g.size) (x : Item (Fin g.size)) : motive active x (g.treeFrom active x) := by
  induction active, x using treeFrom.induct with
  | case1 active s =>
    rw [treeFrom]
    exact scalar active s
  | case2 active i hopen =>
    rw [treeFrom, dif_pos hopen]
    exact circular active i hopen
  | case3 active i hclosed items hcell ih =>
    rw [treeFrom, dif_neg hclosed, hcell]
    exact array active i items hclosed (.inl hcell) ih
  | case4 active i hclosed items hcell ih =>
    rw [treeFrom, dif_neg hclosed, hcell]
    exact array active i items hclosed (.inr hcell) ih
  | case5 active i hclosed items hcell =>
    rw [treeFrom, dif_neg hclosed, hcell]
    exact set active i items hclosed hcell
  | case6 active i hclosed entries hcell ih =>
    rw [treeFrom, dif_neg hclosed, hcell]
    exact object active i entries hclosed hcell ih

def tree (g : Graph) (x : Item (Fin g.size)) : Except Problem Value :=
  g.treeFrom (Vector.replicate g.size false) x

namespace Walk

/-! ### One task -/

section Tasks

variable (active : Vector Bool g.size) (tasks : List g.Task) (results : List Value)

theorem run_nil : (⟨[], active, results⟩ : g.Walk).run = .ok results := by
  rw [run]
  rfl

/-- A task that may fail, and the walk that it leads to. -/
theorem run_of_next {α : Type} {w : g.Walk} {x : Except Problem α} {after : α → g.Walk}
    (h : w.next = x.map fun a => some (after a)) : w.run = x >>= fun a => (after a).run := by
  rw [run, h]
  cases x <;> rfl

theorem run_scalar (s : Scalar) :
    (⟨.visit (.scalar s) :: tasks, active, results⟩ : g.Walk).run
      = s.toValue >>= fun v => (⟨tasks, active, v :: results⟩ : g.Walk).run :=
  run_of_next rfl

variable {active}

theorem run_open {i : Fin g.size} (h : active.get i = true) :
    (⟨.visit (.cell i) :: tasks, active, results⟩ : g.Walk).run = .error .circular := by
  have hnext : (⟨.visit (.cell i) :: tasks, active, results⟩ : g.Walk).next = .error .circular := if_pos h
  rw [run, hnext]

theorem run_closed {i : Fin g.size} (h : ¬active.get i = true) :
    (⟨.visit (.cell i) :: tasks, active, results⟩ : g.Walk).run
      = g.opened i >>= fun inner => (⟨inner ++ tasks, active.set i true i.isLt, results⟩ : g.Walk).run :=
  run_of_next (if_neg h)

variable (active)

theorem run_closeArray (i : Fin g.size) (vs : List Value) :
    (⟨.closeArray i vs.length :: tasks, active, vs.reverse ++ results⟩ : g.Walk).run
      = (⟨tasks, active.set i false i.isLt, .array vs :: results⟩ : g.Walk).run := by
  have htake := Algebra.takeLast_reverse_append vs results
  rw [run, next]
  simp only [htake]

theorem run_closeObject (i : Fin g.size) {keys : List Text} {vs : List Value} (h : keys.length = vs.length) :
    (⟨.closeObject i keys :: tasks, active, vs.reverse ++ results⟩ : g.Walk).run
      = (⟨tasks, active.set i false i.isLt, .object (keys.zip vs) :: results⟩ : g.Walk).run := by
  have htake := Algebra.takeLast_reverse_append vs results
  rw [run, next]
  simp only [h, htake]

end Tasks

/-! ### Items and what they hold -/

/-- Looking at the item does what the recursion does, and leaves one tree. -/
def Visits (active : Vector Bool g.size) (x : Item (Fin g.size)) : Prop :=
  ∀ tasks results, (⟨.visit x :: tasks, active, results⟩ : g.Walk).run
    = g.treeFrom active x >>= fun v => (⟨tasks, active, v :: results⟩ : g.Walk).run

theorem run_visits {active : Vector Bool g.size} (h : ∀ x, Visits active x) (items : List (Item (Fin g.size)))
    (tasks : List g.Task) (results : List Value) :
    (⟨items.map .visit ++ tasks, active, results⟩ : g.Walk).run
      = items.mapM (g.treeFrom active) >>= fun vs =>
        (⟨tasks, active, vs.reverse ++ results⟩ : g.Walk).run := by
  induction items generalizing results with
  | nil => rfl
  | cons x items ih =>
    rw [List.map_cons, List.cons_append, h x, List.mapM_cons]
    cases g.treeFrom active x with
    | error e => rfl
    | ok v =>
      rw [ok_bind, ok_bind, ih]
      cases items.mapM (g.treeFrom active) with
      | error e => rfl
      | ok vs => simp [pure, Except.pure]

theorem close_open {active : Vector Bool g.size} {i : Fin g.size} (h : ¬active.get i = true) :
    (active.set i true i.isLt).set i false i.isLt = active := by
  have hclosed : active[i.val] = false := Bool.eq_false_iff.mpr h
  rw [Vector.set_set, ← hclosed, Vector.set_getElem_self]

/-- The parts of an array, and its end: the trees of its parts lie on top, as many as the closing task
counts, and afterwards what was open before is open again. -/
theorem run_arrayTasks {active : Vector Bool g.size} {i : Fin g.size} (hi : ¬active.get i = true)
    (h : ∀ x, Visits (active.set i true i.isLt) x) (items : List (Item (Fin g.size))) (tasks : List g.Task)
    (results : List Value) :
    (⟨items.map .visit ++ [.closeArray i items.length] ++ tasks, active.set i true i.isLt, results⟩ : g.Walk).run
      = items.mapM (g.treeFrom (active.set i true i.isLt)) >>= fun vs =>
        (⟨tasks, active, .array vs :: results⟩ : g.Walk).run := by
  rw [List.append_assoc, run_visits h]
  cases hvs : items.mapM (g.treeFrom (active.set i true i.isLt)) with
  | error e => rfl
  | ok vs =>
    rw [ok_bind, ok_bind, List.singleton_append, (places_of_mapM hvs).1, run_closeArray, close_open hi]

/-- The values of a table, and its end. -/
theorem run_objectTasks {active : Vector Bool g.size} {i : Fin g.size} (hi : ¬active.get i = true)
    (h : ∀ x, Visits (active.set i true i.isLt) x) {values : List (Item (Fin g.size))} {keys : List Text}
    (hkeys : keys.length = values.length) (tasks : List g.Task) (results : List Value) :
    (⟨values.map .visit ++ [.closeObject i keys] ++ tasks, active.set i true i.isLt, results⟩ : g.Walk).run
      = values.mapM (g.treeFrom (active.set i true i.isLt)) >>= fun vs =>
        (⟨tasks, active, .object (keys.zip vs) :: results⟩ : g.Walk).run := by
  rw [List.append_assoc, run_visits h]
  cases hvs : values.mapM (g.treeFrom (active.set i true i.isLt)) with
  | error e => rfl
  | ok vs =>
    rw [ok_bind, ok_bind, List.singleton_append, run_closeObject _ _ _ _ (hkeys.trans (places_of_mapM hvs).1),
      close_open hi]

theorem opened_sequence {i : Fin g.size} {items : List (Item (Fin g.size))}
    (h : (g.cellAt i).IsSequence items) :
    g.opened i = .ok (items.map .visit ++ [.closeArray i items.length]) := by
  unfold opened
  rcases h with h | h <;> rw [h]

theorem opened_table {i : Fin g.size} {entries : List (Item (Fin g.size) × Item (Fin g.size))}
    (h : g.cellAt i = .table entries) :
    g.opened i = (entries.mapM fun e => g.keyText e.1) >>= fun keys =>
      .ok ((entries.map Prod.snd).map .visit ++ [.closeObject i keys]) := by
  simp only [opened, h, List.map_map]
  cases entries.mapM fun e => g.keyText e.1 <;> rfl

/-- Looking at an item is the recursion, whichever containers are open. -/
theorem visits (active : Vector Bool g.size) (x : Item (Fin g.size)) : Visits active x := by
  unfold Visits
  induction active, x using treeFrom_induction with
  | scalar active s => exact fun tasks results => run_scalar active tasks results s
  | circular active i hopen => exact fun tasks results => run_open tasks results hopen
  | array active i items hclosed hcell ih =>
    intro tasks results
    rw [run_closed _ _ hclosed, opened_sequence hcell, ok_bind, bind_assoc]
    exact run_arrayTasks hclosed ih items tasks results
  | set active i items hclosed hcell =>
    intro tasks results
    rw [run_closed _ _ hclosed, opened, hcell]
    rfl
  | object active i entries hclosed hcell ih =>
    intro tasks results
    rw [run_closed _ _ hclosed, opened_table hcell]
    cases hkeys : entries.mapM fun e => g.keyText e.1 with
    | error e => rfl
    | ok keys =>
      have hlength : keys.length = (entries.map Prod.snd).length := by
        rw [List.length_map, (places_of_mapM hkeys).1]
      rw [ok_bind, ok_bind, ok_bind, bind_assoc]
      exact run_objectTasks hclosed ih hlength tasks results

end Walk

/-! ### Whole graphs -/

/-- The walk of a graph ends with the tree of its root and with no other. -/
theorem run_start (g : Graph) : g.start.run = (g.tree g.root).map fun v => [v] := by
  rw [start, Walk.visits, tree]
  cases g.treeFrom (Vector.replicate g.size false) g.root with
  | error e => rfl
  | ok v => rw [ok_bind, Walk.run_nil]; rfl

/-- The tree of a graph is that of its root. -/
theorem toValue_eq_tree (g : Graph) : g.toValue = g.tree g.root := by
  rw [toValue, run_start]
  cases g.tree g.root <;> rfl

/-! ### The number of steps -/

/-- The walk carries out so many tasks before it ends: with the trees that are finished when no task is left, or
with the task that fails. -/
inductive Walk.Takes : g.Walk → Nat → Except Problem (List Value) → Prop where
  | done {w : g.Walk} (h : w.next = .ok none) : Takes w 0 (.ok w.results)
  | failed {w : g.Walk} {e : Problem} (h : w.next = .error e) : Takes w 0 (.error e)
  | step {w w' : g.Walk} {n : Nat} {r : Except Problem (List Value)} (h : w.next = .ok (some w'))
      (rest : Takes w' n r) : Takes w (n + 1) r

/-- Every walk ends, after no more tasks than there is work. -/
theorem Walk.exists_takes (w : g.Walk) : ∃ n ≤ w.work, w.Takes n w.run := by
  fun_induction run w with
  | case1 w e hnext => exact ⟨0, Nat.zero_le _, .failed hnext⟩
  | case2 w hnext => exact ⟨0, Nat.zero_le _, .done hnext⟩
  | case3 w w' hnext ih =>
    obtain ⟨n, hn, htakes⟩ := ih
    have hlt := work_lt_of_next hnext
    exact ⟨n + 1, by omega, .step hnext htakes⟩

theorem work_start (g : Graph) : g.start.work = g.effort g.size := by
  simp [Walk.work, start, taskEffort, Walk.room]

end Graph

end CanonJson
