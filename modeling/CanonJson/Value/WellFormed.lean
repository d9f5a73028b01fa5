import CanonJson.Number.Numeral
import CanonJson.Value.Basic
/-!
# Well-formed trees

The trees that stand for documents: every number node holds JSON number text, no string and no key
holds a surrogate, and every node is a JSON value.
-/

namespace CanonJson.Value

mutual

/-- The tree stands for a document. -/
def WellFormed : Value → Prop
  | .number t => isNumeral t = true
  | .string t => t.SurrogateFree
  | .array items => ItemsWellFormed items
  | .object members => MembersWellFormed members
  | .foreign _ => False
  | _ => True

/-- Every item stands for a document. -/
def ItemsWellFormed : List Value → Prop
  | [] => True
  | v :: vs => WellFormed v ∧ ItemsWellFormed vs

/-- Every key is free of surrogates and every value stands for a document. -/
def MembersWellFormed : List (Text × Value) → Prop
  | [] => True
  | (k, v) :: ms => k.SurrogateFree ∧ WellFormed v ∧ MembersWellFormed ms

end

end CanonJson.Value
