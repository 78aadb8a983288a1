import SolutionFlow.Number.Digits
import SolutionFlow.Number.Reading
import SolutionFlow.Settings.Document.Reader

/-!
Numbers: whole ones that fit into 64 bits, in four bases, and fractions. Between two digits an
underscore may stand.
-/

namespace SolutionFlow.Document

open Reader

def isSign (c : Char) : Bool := c == '+' || c == '-'

/-- A sign, or nothing. -/
def optionalSign : Reader (List Char) := Option.toList <$> attempt (satisfying isSign)

/-- The digits that follow others. Behind an underscore there has to be a digit. -/
def moreDigits (isDigit : Char → Bool) : Reader (List Char) :=
  many (either (satisfying isDigit)
    (do exactly ['_']; commit (expecting ["digit"] (satisfying isDigit))))

/-- One digit or more, without the underscores. -/
def digits (isDigit : Char → Bool) : Reader (List Char) := do
  let first ← satisfying isDigit
  let rest ← moreDigits isDigit
  return first :: rest

/-- A decimal number, which does not start with a zero unless it is one. -/
def wholeDigits : Reader (List Char) := named "integer" do
  let sign ← optionalSign
  let nonzero := do
    let first ← satisfying fun c => c.isDigit && c != '0'
    let rest ← moreDigits Char.isDigit
    return first :: rest
  let found ← either nonzero (List.singleton <$> satisfying Char.isDigit)
  return sign ++ found

/-- A number that fits into 64 bits with a sign. -/
def fitting (n : Int) : Except Cause Int :=
  if n < Int64.minValue.toInt then .error .tooSmall
  else if Int64.maxValue.toInt < n then .error .tooLarge
  else .ok n

/-- A number in a base of its own, behind a zero and the letter of the base. -/
def basedInteger (letter : Char) (base : Nat) (label : String) : Reader Int := do
  ahead (exactly ['0', letter])
  commit <| judged
    (named label (do exactly ['0', letter]; commit (digits (Number.isDigitOf base))))
    fun found => settle (fitting (Number.ofDigits base found))

def decimalInteger : Reader Int :=
  judged wholeDigits fun found => commit (settle (fitting ((Decimal.int? found).getD 0)))

def integer : Reader Int :=
  either (basedInteger 'x' 16 "hexadecimal integer")
    (either (basedInteger 'o' 8 "octal integer")
      (either (basedInteger 'b' 2 "binary integer") decimalInteger))

def exponentDigits : Reader (List Char) := do
  let _ ← satisfying fun c => c == 'e' || c == 'E'
  let sign ← optionalSign
  let found ← commit (digits Char.isDigit)
  return 'e' :: sign ++ found

def fractionDigits : Reader (List Char) := do
  exactly ['.']
  let found ← commit (expecting ["digit"] (digits Char.isDigit))
  return '.' :: found

/-- A number with a fraction or an exponent or both, without the underscores. -/
def floatDigits : Reader (List Char) := do
  let whole ← wholeDigits
  let behind ← either exponentDigits (do
    let fraction ← fractionDigits
    let exponent ← attempt exponentDigits
    return fraction ++ exponent.getD [])
  return whole ++ behind

def infinite : Reader Double := do
  exactly "inf".toList
  return Double.infinity false

def notANumber : Reader Double := do
  exactly "nan".toList
  return Double.ofMagnitude false (Double.infinityMagnitude + Double.quietBit)

/-- A fraction. One that is larger than all doubles is refused, unless it is negative. -/
def float : Reader Double := named "floating-point number" <|
  either
    (judged floatDigits fun found =>
      match Double.read? found with
      | some d => if d.isInfinite && !d.isNegative then commit stop else pure d
      | none => commit stop)
    (do
      let sign ← optionalSign
      let d ← either infinite notANumber
      return if sign = ['-'] then d.neg else d)

end SolutionFlow.Document
