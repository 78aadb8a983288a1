import SolutionFlow.Number.Double

/-!
The shortest decimal that reads back as a given double.

The reals that round to a finite double form an interval around it. `Double.shortest` tries grids of
one digit, two digits and so on, and takes the first grid with a point in that interval; of two
points it takes the nearer one, and of two equally near ones the larger.
-/

namespace SolutionFlow

/-- The number `digits * 10 ^ exponent`. -/
structure Decimal where
  digits : Nat
  exponent : Int
deriving DecidableEq, Repr

namespace Decimal

/-- How many digits a number has; zero has one. -/
def digitCount (n : Nat) : Nat := (Nat.toDigits 10 n).length

/-- The same number without trailing zeros among its digits; at most `fuel` of them are removed. -/
def trim : Nat → Decimal → Decimal
  | 0, d => d
  | fuel + 1, d =>
    if d.digits ≠ 0 ∧ d.digits % 10 = 0 then trim fuel ⟨d.digits / 10, d.exponent + 1⟩ else d

end Decimal

namespace Double

/-- The reals that round to a positive finite double, counted in half units, with the double itself
between them. The ends belong to the interval if the significand is even. -/
structure Reach where
  low : Nat
  value : Nat
  high : Nat
  closed : Bool

/-- The interval of a finite double other than zero. Below the first number of a binade the
neighbours lie half as far apart. -/
def reach (d : Double) : Reach :=
  let gapBelow := if d.significand = binadeSize ∧ 0 < d.binade then d.gap / 2 else d.gap
  let value := 2 * d.absUnits
  ⟨value - gapBelow, value, value + d.gap, d.significand % 2 == 0⟩

/-- How many half units make up the number one. -/
def halfUnitsPerOne : Nat := 2 * unitsPerOne

/-- The exponent of the leading decimal digit of a finite double other than zero. -/
def leadingExponent (d : Double) : Int :=
  (Decimal.digitCount (d.absUnits * Nat.pow 10 330 / unitsPerOne) : Int) - 331

/-- The point nearest to the double among those multiples of `10 ^ exponent` that read back as it. -/
def nearestOnGrid (r : Reach) (exponent : Int) : Option Nat :=
  let up := Nat.pow 10 (-exponent).toNat
  let unit := halfUnitsPerOne * Nat.pow 10 exponent.toNat
  let value := r.value * up
  let below := value / unit
  let fits (point : Nat) : Bool :=
    if r.closed then r.low * up ≤ point * unit && point * unit ≤ r.high * up
    else r.low * up < point * unit && point * unit < r.high * up
  let aboveIsNearer := (below + 1) * unit - value ≤ value - below * unit
  if fits below && fits (below + 1) then some (if aboveIsNearer then below + 1 else below)
  else if fits below then some below
  else if fits (below + 1) then some (below + 1)
  else none

/-- Tries grids of ever more digits. Seventeen digits always suffice. -/
def searchGrids (r : Reach) (leading : Int) : Nat → Nat → Decimal
  | 0, _ => ⟨0, 0⟩
  | fuel + 1, count =>
    let exponent := leading - count + 1
    match nearestOnGrid r exponent with
    | some digits => ⟨digits, exponent⟩
    | none => searchGrids r leading fuel (count + 1)

/-- The shortest decimal that reads back as the absolute value of a finite double. -/
def shortest (d : Double) : Decimal :=
  if d.isZero then ⟨0, 0⟩
  else (searchGrids d.reach d.leadingExponent 17 1).trim 20

end Double

end SolutionFlow
