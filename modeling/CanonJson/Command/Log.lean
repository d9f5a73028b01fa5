import CanonJson.Layout.Escape
import CanonJson.Text.Quoted
/-!
# Log records

What is reported along the way, with `--verbose`: one line for each record. How a record is spelled is up to a
rendering. The standard one has words and `key=value` pairs in plain lines, and JSON objects otherwise; the fields
are sorted by name.
-/

namespace CanonJson.Command

inductive LogLevel where
  | debug
  | info
deriving DecidableEq

def LogLevel.name : LogLevel → String
  | .debug => "debug"
  | .info => "info"

inductive LogValue where
  | text (t : Text)
  | number (n : Nat)

/-- One report: what happened, and its fields sorted by name. -/
structure LogRecord where
  level : LogLevel
  event : String
  fields : List (String × LogValue)

namespace LogRecord

def logger : String := "jsonsrt.cli"

private def needsQuotes (c : CodePoint) : Bool :=
  [' ', '\t', '=', '\r', '\n', '"', '\''].any c.is

private def plainValue : LogValue → Text
  | .text t => if t.any needsQuotes then Text.quoted t else t
  | .number n => Text.ofNat n

/-- The record as a line of words. -/
def plainLine (r : LogRecord) : Text :=
  "[" ++ Text.padRight 9 r.level.name ++ "] " ++ Text.padRight 30 r.event ++ " [" ++ logger ++ "] "
    ++ Text.join " " (r.fields.map fun f => Text.ofString f.1 ++ "=" ++ plainValue f.2) ++ "\n"

private def jsonValue : LogValue → Text
  | .text t => Layout.encodeString true t
  | .number n => Text.ofNat n

private def insertSorted (f : String × LogValue) : List (String × LogValue) → List (String × LogValue)
  | [] => [f]
  | g :: gs => if f.1 < g.1 then f :: g :: gs else g :: insertSorted f gs

/-- The record as a JSON object on a line, with the time it was made. -/
def jsonLine (timestamp : Text) (r : LogRecord) : Text :=
  let common : List (String × LogValue) :=
    [("event", .text r.event), ("level", .text r.level.name), ("logger", .text logger),
      ("timestamp", .text timestamp)]
  let fields := common.foldl (fun fs f => insertSorted f fs) r.fields
  "\x7b" ++ Text.join ", " (fields.map fun f =>
    Layout.encodeString true (Text.ofString f.1) ++ ": " ++ jsonValue f.2) ++ "\x7d\n"

end LogRecord

/-- How records are spelled, as plain lines and as JSON. -/
structure Rendering where
  plain : LogRecord → Text
  json : LogRecord → Text

def Rendering.standard (timestamp : Text) : Rendering :=
  ⟨LogRecord.plainLine, LogRecord.jsonLine timestamp⟩

/-- A time stands for the standard rendering at that time. -/
instance : Coe Text Rendering := ⟨Rendering.standard⟩

end CanonJson.Command
