import CanonJson.Layout.Options
import CanonJson.Order.Options
/-!
# What the command line asks for
-/

namespace CanonJson.Command

/-- The options of the command line, in the order in which they are defined. -/
inductive Switch where
  | help
  | version
  | noSortKeys
  | keyOrder
  | sortByValue
  | indent
  | compact
  | noTrailingNewline
  | normalizeNumbers
  | ascii
  | rfc8785
  | check
  | digest
  | maxDepth
  | jobs
  | quiet
  | verbose
  | logJson
deriving DecidableEq

namespace Switch

def all : List Switch :=
  [.help, .version, .noSortKeys, .keyOrder, .sortByValue, .indent, .compact, .noTrailingNewline,
    .normalizeNumbers, .ascii, .rfc8785, .check, .digest, .maxDepth, .jobs, .quiet, .verbose, .logJson]

def name : Switch → String
  | .help => "--help"
  | .version => "--version"
  | .noSortKeys => "--no-sort-keys"
  | .keyOrder => "--key-order"
  | .sortByValue => "--sort-by-value"
  | .indent => "--indent"
  | .compact => "--compact"
  | .noTrailingNewline => "--no-trailing-newline"
  | .normalizeNumbers => "--normalize-numbers"
  | .ascii => "--ascii"
  | .rfc8785 => "--rfc8785"
  | .check => "--check"
  | .digest => "--digest"
  | .maxDepth => "--max-depth"
  | .jobs => "--jobs"
  | .quiet => "--quiet"
  | .verbose => "--verbose"
  | .logJson => "--log-json"

/-- All names of an option, as messages show them. -/
def names : Switch → String
  | .help => "-h/--help"
  | s => s.name

def takesValue : Switch → Bool
  | .keyOrder | .sortByValue | .indent | .maxDepth | .jobs => true
  | _ => false

end Switch

/-- The value of an option: not there, there but empty, or there. An option is given an empty value by
`--` right behind its equals sign. -/
inductive Setting (α : Type) where
  | absent
  | empty
  | given (a : α)

structure Flags where
  noSortKeys : Bool := false
  keyOrder : Setting KeyOrder := .absent
  sortByValue : Setting Text := .absent
  indent : Setting Indent := .absent
  compact : Bool := false
  noTrailingNewline : Bool := false
  normalizeNumbers : Bool := false
  ascii : Bool := false
  rfc8785 : Bool := false
  check : Bool := false
  digest : Bool := false
  maxDepth : Setting Int := .absent
  jobs : Setting Int := .absent
  quiet : Bool := false
  verbose : Bool := false
  logJson : Bool := false

namespace Flags

def turnOn (f : Flags) : Switch → Flags
  | .noSortKeys => { f with noSortKeys := true }
  | .compact => { f with compact := true }
  | .noTrailingNewline => { f with noTrailingNewline := true }
  | .normalizeNumbers => { f with normalizeNumbers := true }
  | .ascii => { f with ascii := true }
  | .rfc8785 => { f with rfc8785 := true }
  | .check => { f with check := true }
  | .digest => { f with digest := true }
  | .quiet => { f with quiet := true }
  | .verbose => { f with verbose := true }
  | .logJson => { f with logJson := true }
  | _ => f

/-- The choices with an option given an empty value. -/
def setEmpty (f : Flags) : Switch → Flags
  | .keyOrder => { f with keyOrder := .empty }
  | .sortByValue => { f with sortByValue := .empty }
  | .indent => { f with indent := .empty }
  | .maxDepth => { f with maxDepth := .empty }
  | .jobs => { f with jobs := .empty }
  | _ => f

end Flags

end CanonJson.Command
