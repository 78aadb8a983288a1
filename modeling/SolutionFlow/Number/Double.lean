/-!
Binary64 numbers, held as their bits.

Every finite number is a whole multiple of the smallest positive one, so it is compared and rounded
in exact integer arithmetic on that multiple. Two orders live here: the order of the numbers
(`compare?`, which leaves the not-a-numbers out) and the total order of the bit patterns
(`totalCompare`).
-/

namespace SolutionFlow

/-- A binary64 number. Two of them are equal exactly if their bits are, so the two zeros differ and
a not-a-number equals itself. -/
structure Double where
  bits : UInt64
deriving DecidableEq, Inhabited, Hashable

namespace Double

/-- How many of the smallest steps make up the number one. -/
def unitsPerOne : Nat := Nat.pow 2 1074

/-- The sign bit, as a number. -/
def signBit : Nat := 0x8000000000000000

/-- The bit that tells quiet not-a-numbers from signalling ones, as a number. -/
def quietBit : Nat := 0x0008000000000000

/-- How many magnitudes have the same exponent bits. -/
def binadeSize : Nat := 0x0010000000000000

/-- The magnitude of infinity; larger magnitudes are not numbers. -/
def infinityMagnitude : Nat := 2047 * binadeSize

/-- Whether the sign bit is set. -/
def isNegative (d : Double) : Bool := decide (signBit ≤ d.bits.toNat)

/-- The bits below the sign, which grow with the absolute value. -/
def magnitude (d : Double) : Nat := d.bits.toNat % signBit

/-- The number with the given sign bit and magnitude. -/
def ofMagnitude (negative : Bool) (magnitude : Nat) : Double :=
  ⟨UInt64.ofNat ((if negative then signBit else 0) + magnitude)⟩

def isNaN (d : Double) : Bool := decide (infinityMagnitude < d.magnitude)

def isInfinite (d : Double) : Bool := decide (d.magnitude = infinityMagnitude)

def isFinite (d : Double) : Bool := decide (d.magnitude < infinityMagnitude)

def isZero (d : Double) : Bool := decide (d.magnitude = 0)

def zero : Double := ofMagnitude false 0

def infinity (negative : Bool) : Double := ofMagnitude negative infinityMagnitude

/-- The not-a-number that an operation without a result gives: quiet, and with its sign bit set. -/
def undefined : Double := ofMagnitude true (infinityMagnitude + quietBit)

/-- The same not-a-number with its quiet bit set. -/
def quiet (d : Double) : Double := ⟨d.bits ||| UInt64.ofNat quietBit⟩

/-- The position of the binade; the lowest one takes the numbers below it in. -/
def binade (d : Double) : Nat := d.magnitude / binadeSize - 1

/-- How many units lie between neighbours in the binade. -/
def gap (d : Double) : Nat := Nat.pow 2 d.binade

/-- The leading bits of a finite number, as a whole number below twice the size of a binade. -/
def significand (d : Double) : Nat := d.magnitude - d.binade * binadeSize

/-- The absolute value of a finite number, counted in units. -/
def absUnits (d : Double) : Nat := d.significand * d.gap

/-- The value of a finite number, counted in units. -/
def units (d : Double) : Int := if d.isNegative then -(d.absUnits : Int) else d.absUnits

/-- The place of a number in the order of the numbers; both zeros are in one place. -/
def place (d : Double) : Int := if d.isNegative then -(d.magnitude : Int) else d.magnitude

/-- The order of the numbers. A not-a-number is not comparable, not even with itself. -/
def compare? (a b : Double) : Option Ordering :=
  if a.isNaN || b.isNaN then none else some (compare a.place b.place)

/-- The place of a bit pattern in the total order: negative patterns come first and in reverse. -/
def totalPlace (d : Double) : Int :=
  if d.isNegative then -(d.magnitude : Int) - 1 else d.magnitude

/-- The total order of the bit patterns. -/
def totalCompare (a b : Double) : Ordering := compare a.totalPlace b.totalPlace

/-- The nearest whole number to `n / d`; a half goes to the even neighbour. -/
def roundHalfEven (n d : Nat) : Nat :=
  let q := n / d
  let r := n % d
  if 2 * r < d then q else if d < 2 * r then q + 1 else q + q % 2

/-- The number nearest to `n / d` units, ties to even. It is infinite beyond the finite range. -/
def ofUnitRatio (negative : Bool) (n d : Nat) : Double :=
  let step := Nat.log2 (n / d) - 52
  ofMagnitude negative
    (min (step * binadeSize + roundHalfEven n (d * Nat.pow 2 step)) infinityMagnitude)

/-- The number nearest to the ratio `n / d`. -/
def ofRatio (negative : Bool) (n d : Nat) : Double := ofUnitRatio negative (n * unitsPerOne) d

/-- The number nearest to a whole number. -/
def ofInt (i : Int) : Double := ofRatio (decide (i < 0)) i.natAbs 1

def neg (d : Double) : Double := ofMagnitude (!d.isNegative) d.magnitude

/-- An operation that meets a not-a-number passes on the first one. -/
def withNumbers (a b : Double) (f : Unit → Double) : Double :=
  if a.isNaN then a.quiet else if b.isNaN then b.quiet else f ()

def add (a b : Double) : Double :=
  withNumbers a b fun _ =>
    if a.isInfinite then
      if b.isInfinite && a.isNegative != b.isNegative then undefined else a
    else if b.isInfinite then b
    else
      let sum := a.units + b.units
      let negative := if sum = 0 then a.isNegative && b.isNegative else decide (sum < 0)
      ofUnitRatio negative sum.natAbs 1

def sub (a b : Double) : Double :=
  if b.isNaN then withNumbers a b fun _ => undefined else a.add b.neg

def mul (a b : Double) : Double :=
  withNumbers a b fun _ =>
    let negative := a.isNegative != b.isNegative
    if a.isInfinite || b.isInfinite then
      if a.isZero || b.isZero then undefined else infinity negative
    else ofUnitRatio negative (a.absUnits * b.absUnits) unitsPerOne

def div (a b : Double) : Double :=
  withNumbers a b fun _ =>
    let negative := a.isNegative != b.isNegative
    if a.isInfinite then
      if b.isInfinite then undefined else infinity negative
    else if b.isInfinite then ofMagnitude negative 0
    else if b.isZero then
      if a.isZero then undefined else infinity negative
    else ofUnitRatio negative (a.absUnits * unitsPerOne) b.absUnits

instance : Add Double := ⟨add⟩
instance : Sub Double := ⟨sub⟩
instance : Mul Double := ⟨mul⟩
instance : Div Double := ⟨div⟩

/-- A finite number without its fraction. Its sign stays. -/
def trunc (d : Double) : Double :=
  ofUnitRatio d.isNegative (d.absUnits / unitsPerOne * unitsPerOne) 1

/-- The integer in front of the fraction of a finite number. -/
def toInt (d : Double) : Int := d.units.tdiv unitsPerOne

/-- The number 2^63, the first one above all 64-bit integers. -/
def aboveIntegers : Double := ofMagnitude false (1086 * binadeSize)

/-- The exact comparison of an integer with a double. Doubles within the range of the integers are
compared by their whole parts and then by their fractions. A not-a-number lies beyond all numbers,
on the side of its sign. -/
def compareWhole (i : Int64) (d : Double) : Ordering :=
  if d.isNaN then (ofInt i.toInt).totalCompare d
  else if aboveIntegers.place ≤ d.place then .lt
  else if d.place < aboveIntegers.neg.place then .gt
  else (compare i.toInt d.trunc.toInt).then (zero.totalCompare (d - d.trunc))

end Double

end SolutionFlow
