import CanonJson.Fields.Issue
import CanonJson.Plain.Datum
/-!
# Reports on refused options

The issues of one set of options as a text: how many there are and of which set, then for each its
place, what should have been there, and what was.
-/

namespace CanonJson.Issue

/-- Where the kinds of issue are explained. -/
def manual : String := "https://errors.pydantic.dev/2.14/v/"

def lines (got : Datum) (i : Issue) : Text :=
  Text.join "." i.place ++ "\n  " ++ i.kind.message ++ " [type=" ++ i.kind.name ++ ", input_value="
    ++ got.shown ++ ", input_type=" ++ got.typeName ++ "]\n    For further information visit " ++ manual
    ++ i.kind.name

/-- The report on the issues that a datum causes in a set of options. -/
def report (record : String) (got : Datum) (issues : List Issue) : Text :=
  Text.ofNat issues.length ++ (if issues.length = 1 then " validation error" else " validation errors")
    ++ " for " ++ record ++ "\n" ++ Text.join "\n" (issues.map (lines got))

end CanonJson.Issue
