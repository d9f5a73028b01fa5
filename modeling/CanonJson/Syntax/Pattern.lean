import CanonJson.Text.CodePoint
/-!
# Patterns

Regular expressions that repeat single characters only. They are matched by backtracking: a pattern gives
what may be left behind it, in the order in which that is tried, longer runs first. A text matches as a
whole if nothing may be left.
-/

namespace CanonJson.Syntax

/-- A regular expression. -/
inductive Pattern where
  | one (p : CodePoint → Bool)
  | run (p : CodePoint → Bool)
  | option (a : Pattern)
  | either (a b : Pattern)
  | seq (a b : Pattern)

namespace Pattern

/-- What may be left behind a run, in front of what was to be tried already. -/
def restsOfRun (p : CodePoint → Bool) : Text → List Text → List Text
  | [], tried => [] :: tried
  | c :: t, tried => if p c then restsOfRun p t ((c :: t) :: tried) else (c :: t) :: tried

/-- What may be left behind the pattern. -/
def rests : Pattern → Text → List Text
  | .one _, [] => []
  | .one p, c :: t => if p c then [t] else []
  | .run p, t => restsOfRun p t []
  | .option a, t => rests a t ++ [t]
  | .either a b, t => rests a t ++ rests b t
  | .seq a b, t => (rests a t).flatMap (rests b)

def fullMatches (a : Pattern) (t : Text) : Bool :=
  (a.rests t).any List.isEmpty

/-! ### Numbers -/

/-- One digit or more: `[0-9]+`. -/
def digits : Pattern :=
  .seq (.one CodePoint.isDigit) (.run CodePoint.isDigit)

/-- The digits before the point: `0|[1-9][0-9]*`. -/
def integerPart : Pattern :=
  .either (.one (·.is '0')) (.seq (.one fun c => c.isDigit && !c.is '0') (.run CodePoint.isDigit))

/-- The point and the digits behind it: `[.][0-9]+`. -/
def fractionPart : Pattern :=
  .seq (.one (·.is '.')) digits

/-- The exponent: `[eE][+-]?[0-9]+`. -/
def exponentPart : Pattern :=
  .seq (.one fun c => c.is 'e' || c.is 'E') (.seq (.option (.one fun c => c.is '+' || c.is '-')) digits)

/-- The numbers of the grammar: `-?(0|[1-9][0-9]*)([.][0-9]+)?([eE][+-]?[0-9]+)?`. -/
def number : Pattern :=
  .seq (.option (.one (·.is '-'))) (.seq integerPart (.seq (.option fractionPart) (.option exponentPart)))

end Pattern

end CanonJson.Syntax
