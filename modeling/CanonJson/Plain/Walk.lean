import CanonJson.Plain.Graph
import CanonJson.Value.Walk
/-!
# Walking a graph

A graph becomes a tree with a list of tasks and a list of results instead of the call stack, so depth
costs nothing. A container is open while its parts are dealt with: one that is met while it is open
holds itself, and the walk fails there; one that is met again later is shared, and is walked through
once more. What is shared may make the walk long, but a container that is opened leaves one less to be
opened below it, so it always ends.
-/

namespace CanonJson

def Scalar.toValue : Scalar → Except Problem Value
  | .none => .ok .null
  | .bool b => .ok (.bool b)
  | .int n => (Digits.ofIntBounded? n).elim (.error .integerTooLong) fun t => .ok (.number t)
  | .decimal d => if d.isFinite then .ok (.number d.toText) else .error (.notFinite d.toText)
  | .float x => if x.isFinite then .ok (.number x.toText) else .error (.notFinite x.toText)
  | .text t => .ok (.string t)
  | s => .error (.datumType s.typeName)

def Cell.partCount {ρ : Type} : Cell ρ → Nat
  | .list items => items.length
  | .tuple items => items.length
  | .set items => items.length
  | .table entries => entries.length

namespace Graph

def keyText (g : Graph) : Item (Fin g.size) → Except Problem Text
  | .scalar (.text t) => .ok t
  | item => .error (.keyType (g.typeName item))

/-- A step of the walk: look at an item, or close a container whose parts are done. -/
inductive Task (g : Graph) where
  | visit (x : Item (Fin g.size))
  | closeArray (i : Fin g.size) (count : Nat)
  | closeObject (i : Fin g.size) (keys : List Text)

/-- The tasks of a container: its parts from left to right, then its end. The keys of a table are
looked at before its values. -/
def opened (g : Graph) (i : Fin g.size) : Except Problem (List g.Task) :=
  match g.cellAt i with
  | .list items => .ok (items.map .visit ++ [.closeArray i items.length])
  | .tuple items => .ok (items.map .visit ++ [.closeArray i items.length])
  | .set _ => .error (.datumType "set")
  | .table entries =>
    (entries.mapM fun e => g.keyText e.1).map fun keys =>
      entries.map (fun e => .visit e.2) ++ [.closeObject i keys]

/-- How far a walk has come: what is left to do, which containers are open, and the trees that are
finished, newest first. -/
structure Walk (g : Graph) where
  tasks : List g.Task
  active : Vector Bool g.size
  results : List Value

namespace Walk

variable {g : Graph}

/-- The walk after its next task; none if no task is left. -/
def next (w : g.Walk) : Except Problem (Option g.Walk) :=
  match w.tasks with
  | [] => .ok none
  | .visit (.scalar s) :: tasks =>
    s.toValue.map fun v => some ⟨tasks, w.active, v :: w.results⟩
  | .visit (.cell i) :: tasks =>
    if w.active.get i then .error .circular
    else (g.opened i).map fun inner => some ⟨inner ++ tasks, w.active.set i true i.isLt, w.results⟩
  | .closeArray i count :: tasks =>
    let (items, results) := Algebra.takeLast w.results count
    .ok (some ⟨tasks, w.active.set i false i.isLt, .array items :: results⟩)
  | .closeObject i keys :: tasks =>
    let (values, results) := Algebra.takeLast w.results keys.length
    .ok (some ⟨tasks, w.active.set i false i.isLt, .object (keys.zip values) :: results⟩)

end Walk

/-! ### Every walk ends -/

/-- The greatest number of parts of a container. -/
def width (g : Graph) : Nat :=
  (g.cells.toList.map Cell.partCount).foldr max 0

/-- The work that an item stands for while so many containers are not open. -/
def effort (g : Graph) : Nat → Nat
  | 0 => 1
  | room + 1 => g.width * g.effort room + 2

/-- The work that tasks stand for while so many containers are not open: behind the end of a
container there is one more. -/
def taskEffort (g : Graph) : List g.Task → Nat → Nat
  | [], _ => 0
  | .visit _ :: tasks, room => g.effort room + g.taskEffort tasks room
  | .closeArray _ _ :: tasks, room => g.taskEffort tasks (room + 1) + 1
  | .closeObject _ _ :: tasks, room => g.taskEffort tasks (room + 1) + 1

theorem partCount_le_width (g : Graph) (i : Fin g.size) : (g.cellAt i).partCount ≤ g.width := by
  have hle : ∀ {n : Nat} {l : List Nat}, n ∈ l → n ≤ l.foldr max 0 := by
    intro n l hn
    induction l with
    | nil => cases hn
    | cons m l ih =>
      rw [List.foldr_cons]
      rcases List.mem_cons.mp hn with rfl | hn
      · exact Nat.le_max_left ..
      · exact Nat.le_trans (ih hn) (Nat.le_max_right ..)
  refine hle (List.mem_map_of_mem ?_)
  rw [Vector.mem_toList_iff]
  exact Vector.getElem_mem i.isLt

theorem effort_pos (g : Graph) (room : Nat) : 0 < g.effort room := by
  cases room <;> simp [effort]

theorem effort_le_succ (g : Graph) (room : Nat) : g.effort room ≤ g.effort (room + 1) := by
  induction room with
  | zero => simp [effort]
  | succ room ih =>
    have hmul := Nat.mul_le_mul_left g.width ih
    rw [effort, effort]
    omega

theorem taskEffort_le_succ (g : Graph) (tasks : List g.Task) (room : Nat) :
    g.taskEffort tasks room ≤ g.taskEffort tasks (room + 1) := by
  induction tasks generalizing room with
  | nil => simp [taskEffort]
  | cons task tasks ih =>
    have heffort := g.effort_le_succ room
    cases task with
    | visit x =>
      have := ih room
      simp only [taskEffort]
      omega
    | closeArray i count => simpa [taskEffort] using ih (room + 1)
    | closeObject i keys => simpa [taskEffort] using ih (room + 1)

theorem taskEffort_mono (g : Graph) (tasks : List g.Task) {m n : Nat} (h : m ≤ n) :
    g.taskEffort tasks m ≤ g.taskEffort tasks n := by
  induction h with
  | refl => exact Nat.le_refl _
  | step _ ih => exact Nat.le_trans ih (g.taskEffort_le_succ tasks _)

theorem taskEffort_visits (g : Graph) (items : List (Item (Fin g.size))) (tasks : List g.Task)
    (room : Nat) :
    g.taskEffort (items.map .visit ++ tasks) room
      = items.length * g.effort room + g.taskEffort tasks room := by
  induction items with
  | nil => simp
  | cons x items ih =>
    rw [List.map_cons, List.cons_append, taskEffort, ih, List.length_cons, Nat.succ_mul]
    omega

/-- Opening a container leaves less to do than the container itself stood for. -/
theorem taskEffort_opened_lt {g : Graph} {i : Fin g.size} {inner : List g.Task}
    (h : g.opened i = .ok inner) (tasks : List g.Task) (room : Nat) :
    g.taskEffort (inner ++ tasks) room < g.effort (room + 1) + g.taskEffort tasks (room + 1) := by
  have hwidth := g.partCount_le_width i
  -- Whichever kind it is, its parts come first, and one task stands behind them.
  have hparts : ∀ (items : List (Item (Fin g.size))) (close : g.Task), items.length ≤ g.width →
      g.taskEffort (close :: tasks) room = g.taskEffort tasks (room + 1) + 1 →
      g.taskEffort (items.map .visit ++ [close] ++ tasks) room
        < g.effort (room + 1) + g.taskEffort tasks (room + 1) := by
    intro items close hlength hclose
    have hmul := Nat.mul_le_mul_right (g.effort room) hlength
    rw [List.append_assoc, List.singleton_append, taskEffort_visits, hclose, effort]
    omega
  unfold opened at h
  split at h
  · rename_i items hcell
    obtain rfl := Except.ok.inj h
    rw [hcell] at hwidth
    exact hparts items _ hwidth rfl
  · rename_i items hcell
    obtain rfl := Except.ok.inj h
    rw [hcell] at hwidth
    exact hparts items _ hwidth rfl
  · cases h
  · rename_i entries hcell
    rw [hcell] at hwidth
    cases hkeys : entries.mapM fun e => g.keyText e.1 with
    | error e =>
      rw [hkeys] at h
      cases h
    | ok keys =>
      rw [hkeys] at h
      obtain rfl := Except.ok.inj h
      have hvalues : (entries.map Prod.snd).length ≤ g.width := by
        rw [List.length_map]
        exact hwidth
      have hlt := hparts (entries.map Prod.snd) (.closeObject i keys) hvalues rfl
      rwa [List.map_map] at hlt

namespace Walk

variable {g : Graph}

def room (active : Vector Bool g.size) : Nat :=
  active.count false

theorem room_open {active : Vector Bool g.size} {i : Fin g.size} (h : ¬active.get i = true) :
    room (active.set i true i.isLt) + 1 = room active := by
  have hclosed : active[i.val] = false := Bool.eq_false_iff.mpr h
  have hpos : 0 < active.count false :=
    Vector.count_pos_iff.mpr (hclosed ▸ Vector.getElem_mem i.isLt)
  have hcount : (active.set i true i.isLt).count false = _ := Vector.count_set i.isLt
  simp only [hclosed, beq_self_eq_true, ↓reduceIte, Bool.true_beq, Bool.false_eq_true] at hcount
  unfold room
  omega

theorem room_close (active : Vector Bool g.size) (i : Fin g.size) :
    room (active.set i false i.isLt) ≤ room active + 1 := by
  have hcount : (active.set i false i.isLt).count false = _ := Vector.count_set i.isLt
  simp only [beq_self_eq_true, ↓reduceIte] at hcount
  unfold room
  omega

/-- The work that is left. -/
def work (w : g.Walk) : Nat :=
  g.taskEffort w.tasks (room w.active)

theorem work_lt_of_next {w w' : g.Walk} (h : w.next = .ok (some w')) : w'.work < w.work := by
  obtain ⟨tasks, active, results⟩ := w
  unfold next at h
  simp only at h
  split at h
  · cases h
  · rename_i s tasks
    cases hs : s.toValue with
    | error e =>
      rw [hs] at h
      cases h
    | ok v =>
      rw [hs] at h
      obtain rfl := Option.some.inj (Except.ok.inj h)
      exact Nat.lt_add_of_pos_left (g.effort_pos _)
  · rename_i i tasks
    split at h
    · cases h
    · rename_i hclosed
      cases hopened : g.opened i with
      | error e =>
        rw [hopened] at h
        cases h
      | ok inner =>
        rw [hopened] at h
        obtain rfl := Option.some.inj (Except.ok.inj h)
        have hlt := taskEffort_opened_lt hopened tasks (room (active.set i true i.isLt))
        rw [room_open hclosed] at hlt
        exact hlt
  · rename_i i count tasks
    obtain rfl := Option.some.inj (Except.ok.inj h)
    exact Nat.lt_succ_of_le (g.taskEffort_mono tasks (room_close active i))
  · rename_i i keys tasks
    obtain rfl := Option.some.inj (Except.ok.inj h)
    exact Nat.lt_succ_of_le (g.taskEffort_mono tasks (room_close active i))

/-- Carries out the tasks in order; each finished item leaves one result. -/
def run (w : g.Walk) : Except Problem (List Value) :=
  match _next : w.next with
  | .error e => .error e
  | .ok none => .ok w.results
  | .ok (some w') => w'.run
termination_by w.work
decreasing_by exact work_lt_of_next _next

end Walk

def start (g : Graph) : g.Walk :=
  ⟨[.visit g.root], Vector.replicate g.size false, []⟩

/-- The tree of a graph, everything shared being walked through at each use. -/
def toValue (g : Graph) : Except Problem Value :=
  g.start.run.map fun results => results.headD .null

end Graph

end CanonJson
