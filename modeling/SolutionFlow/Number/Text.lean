import SolutionFlow.Number.Shortest

/-!
The two written forms of a double, both with the shortest digits that read back: positional, which
never has an exponent, and scientific, which always has one.
-/

namespace SolutionFlow

namespace Decimal

/-- The digits of a number, as text. -/
def digitText (n : Nat) : String := String.ofList (Nat.toDigits 10 n)

def zeros (n : Nat) : String := String.ofList (List.replicate n '0')

/-- Positional form: all digits written out around the point, no point in a whole number. -/
def positional (d : Decimal) : String :=
  let text := digitText d.digits
  if 0 ≤ d.exponent then
    if d.digits = 0 then "0" else text ++ zeros d.exponent.toNat
  else
    let places := (-d.exponent).toNat
    let padded := zeros (places + 1 - text.length) ++ text
    let whole := padded.length - places
    (padded.take whole).toString ++ "." ++ (padded.drop whole).toString

/-- Scientific form: one digit before the point, no point behind a single digit. -/
def scientific (d : Decimal) : String :=
  let text := digitText d.digits
  let exponent := d.exponent + text.length - 1
  let fraction := (text.drop 1).toString
  (text.take 1).toString ++ (if fraction.isEmpty then "" else "." ++ fraction) ++ "e" ++
    toString exponent

end Decimal

namespace Double

/-- A number in the form that `finite` gives to its digits, or the name of what is not finite. -/
def written (finite : Decimal → String) (d : Double) : String :=
  if d.isNaN then "NaN"
  else
    (if d.isNegative then "-" else "") ++
      (if d.isInfinite then "inf" else finite d.shortest)

def positional (d : Double) : String := d.written Decimal.positional

def scientific (d : Double) : String := d.written Decimal.scientific

end Double

end SolutionFlow
