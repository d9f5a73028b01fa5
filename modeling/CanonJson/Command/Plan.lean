import CanonJson.Command.Arguments
import CanonJson.Syntax.Source
/-!
# From choices to a plan

The choices of a command line, checked and completed: limits in range, choices that go together, and
the options for ordering and layout, where single choices win over the preset. An option whose value
was left empty is noticed here, by whatever needs the value first.
-/

namespace CanonJson.Command

/-- Why a command line leads to no plan: it is refused, or it makes the program fail. -/
inductive Refusal where
  | usage (e : UsageError)
  | problem (p : Problem)

/-- What a run is to do. -/
structure Plan where
  order : SortOptions := {}
  layout : LayoutOptions := {}
  limit : Nat := defaultDepth
  jobs : Int := 1
  check : Bool := false
  digest : Bool := false
  quiet : Bool := false
  verbose : Bool := false
  logJson : Bool := false

inductive Task where
  | help
  | version
  | format (plan : Plan) (files : List Text)

/-- An empty value as the options see it. -/
def emptyValue : Datum := .list []

private def accepted {α : Type} (record : String) (r : Except (List Issue) α) : Except Refusal α :=
  match r with
  | .ok a => .ok a
  | .error issues => .error (.usage (.invalidOptions record emptyValue issues))

/-- A number that has to be positive. -/
def positive (default : Nat) (otherwise : UsageError) : Setting Int → Except Refusal Int
  | .absent => .ok default
  | .empty => .error (.problem .numberNotGiven)
  | .given n => if n < 1 then .error (.usage otherwise) else .ok n

namespace Flags

def order (f : Flags) : Except Refusal SortOptions := do
  let base : SortOptions := if f.rfc8785 then .rfc8785 else {}
  let keyOrder ← match f.keyOrder with
    | .absent => pure base.keyOrder
    | .empty => throw (.problem .keyOrderNotGiven)
    | .given k => pure k
  let arraysBy ← match f.sortByValue with
    | .absent => pure none
    | .empty => do
      pure (← accepted "SortConfig" (Fields.sortOptions [("sort_arrays_by", emptyValue)])).arraysBy
    | .given t => pure (some t)
  return ⟨base.sortKeys && !f.noSortKeys, keyOrder, arraysBy⟩

def layout (f : Flags) : Except Refusal LayoutOptions := do
  let base : LayoutOptions := if f.rfc8785 then .rfc8785 else {}
  let indent ← match f.indent with
    | .absent => pure base.indent
    | .empty => do pure (← accepted "FormatConfig" (Fields.layoutOptions [("indent", emptyValue)])).indent
    | .given i => pure i
  return ⟨indent, if f.compact then .compact else base.spacing,
    base.trailingNewline && !f.noTrailingNewline,
    if f.normalizeNumbers then .normalized else base.numbers, base.ascii || f.ascii⟩

def plan (f : Flags) : Except Refusal Plan := do
  let limit ← positive defaultDepth .depthNotPositive f.maxDepth
  let jobs ← positive 1 .jobsNotPositive f.jobs
  if f.quiet && f.verbose then throw (.usage .quietAndVerbose)
  return ⟨← f.order, ← f.layout, limit.toNat, jobs, f.check, f.digest, f.quiet, f.verbose, f.logJson⟩

end Flags

/-- What a command line asks the program to do. -/
def taskOf (args : List Text) : Except Refusal Task :=
  match readArguments args with
  | .error e => .error (.usage e)
  | .ok .help => .ok .help
  | .ok .version => .ok .version
  | .ok (.format f files) => do return .format (← f.plan) files

end CanonJson.Command
