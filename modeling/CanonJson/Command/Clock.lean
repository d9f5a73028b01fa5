import CanonJson.Number.Digits
/-!
# Time stamps

Moments as log records show them: the date and the time of day in UTC, to the microsecond.
-/

namespace CanonJson.Command

/-- The year, month and day that lie a number of days behind the first of January 1970. Years are
counted from March, so that the day a leap year adds is the last one. -/
def civilDate (days : Int) : Int × Nat × Nat :=
  let z := days + 719468
  let era := z.fdiv 146097
  let dayOfEra := (z - era * 146097).toNat
  let yearOfEra := (dayOfEra - dayOfEra / 1460 + dayOfEra / 36524 - dayOfEra / 146096) / 365
  let dayOfYear := dayOfEra - (365 * yearOfEra + yearOfEra / 4 - yearOfEra / 100)
  let shifted := (5 * dayOfYear + 2) / 153
  let month := if shifted < 10 then shifted + 3 else shifted - 9
  let year := era * 400 + yearOfEra + (if month ≤ 2 then 1 else 0)
  (year, month, dayOfYear - (153 * shifted + 2) / 5 + 1)

private def two (n : Nat) : Text :=
  Digits.zeroFill 2 (Text.ofNat n)

/-- The moment a number of microseconds behind the beginning of 1970. -/
def timestamp (microseconds : Int) : Text :=
  let seconds := microseconds.fdiv 1000000
  let fraction := (microseconds - seconds * 1000000).toNat
  let days := seconds.fdiv 86400
  let time := (seconds - days * 86400).toNat
  let (year, month, day) := civilDate days
  Digits.zeroFill 4 (Text.ofInt year) ++ "-" ++ two month ++ "-" ++ two day ++ "T" ++ two (time / 3600)
    ++ ":" ++ two (time / 60 % 60) ++ ":" ++ two (time % 60) ++ "."
    ++ Digits.zeroFill 6 (Text.ofNat fraction) ++ "Z"

end CanonJson.Command
