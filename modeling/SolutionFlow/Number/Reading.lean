import SolutionFlow.Number.Shortest

/-!
Reading numbers from text.
-/

namespace SolutionFlow

namespace Decimal

/-- The number that some digits stand for. -/
def ofDigits (digits : List Char) : Nat :=
  digits.foldl (fun n c => 10 * n + (c.toNat - '0'.toNat)) 0

/-- A sign at the start of a text, and the rest of it. -/
def splitSign : List Char → Bool × List Char
  | '-' :: rest => (true, rest)
  | '+' :: rest => (false, rest)
  | rest => (false, rest)

/-- A whole number with an optional sign. -/
def int? (text : List Char) : Option Int :=
  let (negative, digits) := splitSign text
  if digits.isEmpty || !digits.all Char.isDigit then none
  else some (if negative then -(ofDigits digits : Int) else ofDigits digits)

end Decimal

namespace Double

/-- The number with the given digits and decimal exponent. -/
def ofDecimal (negative : Bool) (digits : Nat) (exponent : Int) : Double :=
  ofRatio negative (digits * Nat.pow 10 exponent.toNat) (Nat.pow 10 (-exponent).toNat)

/-- A decimal fraction with an optional sign and an optional exponent. At least one digit stands
around the point. Zeros in front of the first other digit say nothing about the size of the
number. -/
def read? (text : List Char) : Option Double := do
  let (negative, text) := Decimal.splitSign text
  let whole := text.takeWhile Char.isDigit
  let text := text.dropWhile Char.isDigit
  let (fraction, text) :=
    match text with
    | '.' :: rest => (rest.takeWhile Char.isDigit, rest.dropWhile Char.isDigit)
    | rest => ([], rest)
  if whole.isEmpty && fraction.isEmpty then none
  else
    let exponent ←
      match text with
      | [] => some 0
      | 'e' :: rest | 'E' :: rest => Decimal.int? rest
      | _ => none
    let digits := Decimal.ofDigits (whole ++ fraction)
    let exponent := exponent - fraction.length
    let places := Decimal.digitCount digits
    if digits = 0 then return ofMagnitude negative 0
    else if 400 < exponent + places then return infinity negative
    else if exponent + places < -400 then return ofMagnitude negative 0
    else return ofDecimal negative digits exponent

end Double

end SolutionFlow
