import CanonJson.Problem
/-!
# Data with sharing

A graph of containers that may hold each other, themselves included. Each container is a numbered
cell, and an item is either a scalar or the number of a cell. `expand?` expands what is shared at each
use; it gives nothing exactly when the expansion would never end. `unroll` goes to a given depth and
always ends.
-/

namespace CanonJson

/-- A scalar, or a reference to a container. -/
inductive Item (ρ : Type) where
  | scalar (s : Scalar)
  | cell (i : ρ)

/-- A container whose parts may be references. -/
inductive Cell (ρ : Type) where
  | list (items : List (Item ρ))
  | tuple (items : List (Item ρ))
  | set (items : List (Item ρ))
  | table (entries : List (Item ρ × Item ρ))

def Item.mapM {ρ σ : Type} (f : ρ → Option σ) : Item ρ → Option (Item σ)
  | .scalar s => some (.scalar s)
  | .cell i => (f i).map .cell

/-- The item with a datum in the place of its reference. -/
def Item.toDatum {ρ : Type} (f : ρ → Datum) : Item ρ → Datum
  | .scalar s => .scalar s
  | .cell i => f i

namespace Cell

/-- The container with its references replaced. -/
def mapM {ρ σ : Type} (f : ρ → Option σ) : Cell ρ → Option (Cell σ)
  | .list items => (items.mapM (Item.mapM f)).map .list
  | .tuple items => (items.mapM (Item.mapM f)).map .tuple
  | .set items => (items.mapM (Item.mapM f)).map .set
  | .table entries =>
    (entries.mapM fun (k, v) => do return (← Item.mapM f k, ← Item.mapM f v)).map .table

def typeName {ρ : Type} : Cell ρ → Text
  | .list _ => "list"
  | .tuple _ => "tuple"
  | .set _ => "set"
  | .table _ => "dict"

/-- The container with data in the place of its references. -/
def toDatum {ρ : Type} (f : ρ → Datum) : Cell ρ → Datum
  | .list items => .list (items.map (Item.toDatum f))
  | .tuple items => .tuple (items.map (Item.toDatum f))
  | .set items => .set (items.map (Item.toDatum f))
  | .table entries => .table (entries.map fun (k, v) => (Item.toDatum f k, Item.toDatum f v))

end Cell

/-- A finite graph of containers, with the item it is entered by. -/
structure Graph where
  size : Nat
  cells : Vector (Cell (Fin size)) size
  root : Item (Fin size)

namespace Graph

def cellAt (g : Graph) (i : Fin g.size) : Cell (Fin g.size) :=
  g.cells.get i

/-- The graph of numbered containers, if every reference is the number of one. -/
def ofCells? (cells : Array (Cell Nat)) (root : Item Nat) : Option Graph := do
  let known (i : Nat) : Option (Fin cells.size) := if h : i < cells.size then some ⟨i, h⟩ else none
  let cells' ← (⟨cells, rfl⟩ : Vector (Cell Nat) cells.size).mapM (Cell.mapM known)
  return ⟨cells.size, cells', ← root.mapM known⟩

def typeName (g : Graph) : Item (Fin g.size) → Text
  | .scalar s => s.typeName
  | .cell i => (g.cellAt i).typeName

/-- The expansion of an item through at most `fuel` containers. -/
def expandFrom? (g : Graph) : Nat → Item (Fin g.size) → Option Datum
  | _, .scalar s => some (.scalar s)
  | 0, .cell _ => none
  | fuel + 1, .cell i =>
    match g.cellAt i with
    | .list items => (items.mapM (expandFrom? g fuel)).map .list
    | .tuple items => (items.mapM (expandFrom? g fuel)).map .tuple
    | .set items => (items.mapM (expandFrom? g fuel)).map .set
    | .table entries =>
      (entries.mapM fun (k, v) => do
        return (← expandFrom? g fuel k, ← expandFrom? g fuel v)).map .table

/-- The data that the graph stands for, everything shared being expanded at each use. -/
def expand? (g : Graph) : Option Datum :=
  g.expandFrom? g.size g.root

/-- What each container stands for down to a depth, below which there are empty lists. -/
def unrollCells (g : Graph) : Nat → Vector Datum g.size
  | 0 => Vector.replicate g.size (.list [])
  | depth + 1 =>
    let below := g.unrollCells depth
    g.cells.map (Cell.toDatum fun i => below.get i)

/-- The data that the graph stands for down to a depth. -/
def unroll (g : Graph) (depth : Nat) : Datum :=
  g.root.toDatum fun i => (g.unrollCells depth).get i

end Graph

end CanonJson
