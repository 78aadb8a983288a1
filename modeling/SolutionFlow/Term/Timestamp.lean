import SolutionFlow.Calendar
import SolutionFlow.Term.Basic

/-!
Times as terms: the date and the time of day, with milliseconds, in the time zone of the prime
meridian.
-/

namespace SolutionFlow

namespace Timestamp

/-- A number with zeros in front, up to the given width. -/
def padded (width n : Nat) : String :=
  let digits := Nat.toDigits 10 n
  String.ofList (List.replicate (width - digits.length) '0' ++ digits)

/-- The text of a time in milliseconds since the start of 1970. -/
def text (milliseconds : Nat) : String :=
  let seconds := milliseconds / 1000
  let minutes := seconds / 60
  let hours := minutes / 60
  let date := Calendar.Date.ofDays (hours / 24)
  padded 4 date.year ++ "-" ++ padded 2 date.month ++ "-" ++ padded 2 date.day ++ "T" ++
    padded 2 (hours % 24) ++ ":" ++ padded 2 (minutes % 60) ++ ":" ++ padded 2 (seconds % 60) ++
    "." ++ padded 3 (milliseconds % 1000) ++ "Z"

end Timestamp

/-- A time in nanoseconds since the start of 1970, of which whole milliseconds are told. -/
def Term.ofTime (nanoseconds : Nat) : Term :=
  .typed (Timestamp.text (nanoseconds / 1000000)) (Term.xsd "dateTime")

end SolutionFlow
