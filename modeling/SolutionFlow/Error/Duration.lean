import SolutionFlow.Number.Text

/-!
Lengths of time and how messages show them: in the largest unit that gives a whole part, with as
many decimals as the nanoseconds need.
-/

namespace SolutionFlow

/-- A length of time. -/
structure Duration where
  nanoseconds : Nat
deriving DecidableEq

namespace Duration

def ofMilliseconds (n : Nat) : Duration := ⟨n * 1000000⟩

def ofSeconds (n : Nat) : Duration := ⟨n * 1000000000⟩

def inMilliseconds (d : Duration) : Nat := d.nanoseconds / 1000000

/-- The part behind the point: the remainder with `width` digits, less the zeros at its end. -/
def fractionText (remainder width : Nat) : String :=
  let digits := Decimal.digitText remainder
  let padded := Decimal.zeros (width - digits.length) ++ digits
  let shown := (padded.toList.reverse.dropWhile (· == '0')).reverse
  if shown.isEmpty then "" else "." ++ String.ofList shown

/-- The length in a unit of `10 ^ width` nanoseconds. -/
def inUnit (d : Duration) (width : Nat) (unit : String) : String :=
  let size := Nat.pow 10 width
  toString (d.nanoseconds / size) ++ fractionText (d.nanoseconds % size) width ++ unit

def display (d : Duration) : String :=
  if 1000000000 ≤ d.nanoseconds then d.inUnit 9 "s"
  else if 1000000 ≤ d.nanoseconds then d.inUnit 6 "ms"
  else if 1000 ≤ d.nanoseconds then d.inUnit 3 "µs"
  else toString d.nanoseconds ++ "ns"

end Duration

end SolutionFlow
