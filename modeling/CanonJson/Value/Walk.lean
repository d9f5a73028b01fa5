import CanonJson.Value.Basic
/-!
# Walking a tree bottom-up

An algebra says what becomes of each node once its children have been dealt with. `walk` applies it
with a list of tasks and a list of results instead of the call stack, so depth costs nothing; `fold`
is the same by recursion: children from left to right, then the node. The first failure met ends
either of them.
-/

namespace CanonJson

/-- What becomes of a leaf, of an array's results and of an object's results. -/
structure Algebra (ε α : Type) where
  leaf : Value → Except ε α
  array : List α → Except ε α
  object : List (Text × α) → Except ε α

namespace Algebra

variable {ε α : Type}

mutual

/-- The algebra applied by recursion. -/
def fold (alg : Algebra ε α) : Value → Except ε α
  | .array items => do alg.array (← foldItems alg items)
  | .object members => do alg.object (← foldMembers alg members)
  | .null => alg.leaf .null
  | .bool b => alg.leaf (.bool b)
  | .number t => alg.leaf (.number t)
  | .string t => alg.leaf (.string t)
  | .foreign d => alg.leaf (.foreign d)

def foldItems (alg : Algebra ε α) : List Value → Except ε (List α)
  | [] => .ok []
  | v :: vs => do
    let a ← fold alg v
    let as ← foldItems alg vs
    return a :: as

def foldMembers (alg : Algebra ε α) : List (Text × Value) → Except ε (List (Text × α))
  | [] => .ok []
  | (k, v) :: ms => do
    let a ← fold alg v
    let as ← foldMembers alg ms
    return (k, a) :: as

end

/-- A step of the walk: look at a node, or close a container whose children are done. -/
inductive Task where
  | visit (v : Value)
  | closeArray (count : Nat)
  | closeObject (keys : List Text)

def Task.weight : Task → Nat
  | .visit v => v.weight
  | .closeArray _ => 1
  | .closeObject _ => 1

def tasksWeight : List Task → Nat
  | [] => 0
  | x :: xs => x.weight + tasksWeight xs

/-- The last `count` results in the order they were made, and the earlier ones. Results are kept
newest first. -/
def takeLast (results : List α) (count : Nat) : List α × List α :=
  ((results.take count).reverse, results.drop count)

/-- The tasks of an array: its items from left to right, then its end. -/
def arrayTasks (items : List Value) : List Task :=
  items.map .visit ++ [.closeArray items.length]

/-- The tasks of an object: its values from left to right, then its end. -/
def objectTasks (members : List (Text × Value)) : List Task :=
  members.map (fun m => .visit m.2) ++ [.closeObject (members.map Prod.fst)]

theorem tasksWeight_append (ts us : List Task) :
    tasksWeight (ts ++ us) = tasksWeight ts + tasksWeight us := by
  induction ts with
  | nil => simp [tasksWeight]
  | cons x xs ih =>
    simp only [List.cons_append, tasksWeight, ih]
    omega

theorem tasksWeight_arrayTasks_lt (items : List Value) :
    tasksWeight (arrayTasks items) < (Value.array items).weight := by
  have h : tasksWeight (items.map .visit) ≤ Value.itemsWeight items := by
    induction items with
    | nil => simp [tasksWeight, Value.itemsWeight]
    | cons v vs ih =>
      simp only [tasksWeight, List.map_cons, Task.weight, Value.itemsWeight] at ih ⊢
      omega
  rw [arrayTasks, tasksWeight_append, Value.weight]
  simp only [tasksWeight, Task.weight] at h ⊢
  omega

theorem tasksWeight_objectTasks_lt (members : List (Text × Value)) :
    tasksWeight (objectTasks members) < (Value.object members).weight := by
  have h : tasksWeight (members.map fun m => .visit m.2) ≤ Value.membersWeight members := by
    induction members with
    | nil => simp [tasksWeight, Value.membersWeight]
    | cons m ms ih =>
      simp only [tasksWeight, List.map_cons, Task.weight, Value.membersWeight] at ih ⊢
      omega
  rw [objectTasks, tasksWeight_append, Value.weight]
  simp only [tasksWeight, Task.weight] at h ⊢
  omega

/-- Carries out the tasks in order; each finished node leaves one result. -/
def run (alg : Algebra ε α) (tasks : List Task) (results : List α) : Except ε (List α) :=
  match tasks with
  | [] => .ok results
  | .visit (.array items) :: tasks =>
    run alg (arrayTasks items ++ tasks) results
  | .visit (.object members) :: tasks =>
    run alg (objectTasks members ++ tasks) results
  | .visit v :: tasks =>
    match alg.leaf v with
    | .error e => .error e
    | .ok a => run alg tasks (a :: results)
  | .closeArray count :: tasks =>
    match alg.array (takeLast results count).1 with
    | .error e => .error e
    | .ok a => run alg tasks (a :: (takeLast results count).2)
  | .closeObject keys :: tasks =>
    match alg.object (keys.zip (takeLast results keys.length).1) with
    | .error e => .error e
    | .ok a => run alg tasks (a :: (takeLast results keys.length).2)
termination_by tasksWeight tasks
decreasing_by
  · have := tasksWeight_arrayTasks_lt items
    rw [tasksWeight_append]
    simp only [tasksWeight, Task.weight] at this ⊢
    omega
  · have := tasksWeight_objectTasks_lt members
    rw [tasksWeight_append]
    simp only [tasksWeight, Task.weight] at this ⊢
    omega
  · have := v.weight_pos
    simp only [tasksWeight, Task.weight]
    omega
  · simp [tasksWeight, Task.weight]
  · simp [tasksWeight, Task.weight]

/-- The algebra applied to a whole tree. -/
def walk (alg : Algebra ε α) (v : Value) : Except ε α :=
  match run alg [.visit v] [] with
  | .error e => .error e
  | .ok (a :: _) => .ok a
  | .ok [] => alg.leaf v

end Algebra

end CanonJson
