import Mathlib.Algebra.Order.Field.Rat
import Mathlib.Tactic.FieldSimp
import Mathlib.Tactic.Positivity
import SolutionFlow.Proofs.Number.Order

/-! The values of doubles as rational numbers, read off the fields of their representation. Counting in
units is the same on another scale, so that the orders of finite doubles and integers are those of
their values. -/
namespace SolutionFlow.Double

/-- The value of a finite double. Its fraction stands behind a leading bit, except in the lowest binade,
and the exponent tells the place of the last bit. -/
def value (d : Double) : ℚ :=
  let exponent := d.magnitude / binadeSize
  let fraction := d.magnitude % binadeSize
  (if d.isNegative then -1 else 1) *
    if exponent = 0 then (fraction : ℚ) * 2 ^ (-1074 : ℤ)
    else ((binadeSize + fraction : Nat) : ℚ) * 2 ^ ((exponent : ℤ) - 1075)

theorem cast_unitsPerOne : (unitsPerOne : ℚ) = 2 ^ (1074 : ℤ) := by
  have hCast : (1074 : ℤ) = ((1074 : Nat) : ℤ) := rfl
  unfold unitsPerOne
  rw [hCast]
  generalize 1074 = k
  rw [Nat.pow_eq, Nat.cast_pow, Nat.cast_ofNat, zpow_natCast]

theorem cast_unitsPerOne_pos : 0 < (unitsPerOne : ℚ) := Nat.cast_pos.mpr unitsPerOne_pos

/-- The number of units on the scale of the number one, by the fields of the representation. -/
theorem absUnits_div_unitsPerOne (d : Double) :
    (d.absUnits : ℚ) / unitsPerOne =
      if d.magnitude / binadeSize = 0 then ((d.magnitude % binadeSize : Nat) : ℚ) * 2 ^ (-1074 : ℤ)
      else ((binadeSize + d.magnitude % binadeSize : Nat) : ℚ) *
        2 ^ (((d.magnitude / binadeSize : Nat) : ℤ) - 1075) := by
  have hSplit := Nat.div_add_mod d.magnitude binadeSize
  rw [cast_unitsPerOne, absUnits, significand, gap, binade, Nat.pow_eq]
  generalize d.magnitude / binadeSize = q at *
  generalize d.magnitude % binadeSize = r at *
  cases q with
  | zero =>
      have hLow : d.magnitude = r := by omega
      rw [if_pos rfl, hLow, div_eq_mul_inv, ← zpow_neg]
      simp
  | succ q =>
      have hHigh : d.magnitude - q * binadeSize = binadeSize + r := by
        rw [Nat.mul_add] at hSplit
        rw [Nat.mul_comm q]
        omega
      have hExponent : ((q + 1 : Nat) : ℤ) - 1075 = (q : ℤ) - 1074 := by
        push_cast
        ring
      rw [if_neg (Nat.add_one_ne_zero q), Nat.add_sub_cancel, hHigh, hExponent,
        zpow_sub₀ two_ne_zero, Nat.cast_mul, Nat.cast_pow, Nat.cast_ofNat, zpow_natCast, mul_div_assoc]

/-- The value is the number of units, on the scale of the number one. -/
theorem value_eq (d : Double) : d.value = d.units / unitsPerOne := by
  simp only [value, units, ← absUnits_div_unitsPerOne]
  generalize (unitsPerOne : ℚ) = u
  cases d.isNegative
  · simp
  · simp [neg_div]

/-- To count in units keeps the order. -/
theorem div_unitsPerOne_lt {m n : Int} (h : m < n) : (m : ℚ) / unitsPerOne < (n : ℚ) / unitsPerOne :=
  div_lt_div_of_pos_right (Int.cast_lt.mpr h) cast_unitsPerOne_pos

theorem compare_int_value (i : Int) (d : Double) :
    compare (i : ℚ) d.value = compare (i * unitsPerOne) d.units := by
  have hInt : (i : ℚ) = ((i * unitsPerOne : Int) : ℚ) / unitsPerOne := by
    rw [Int.cast_mul, Int.cast_natCast, mul_div_cancel_right₀ _ cast_unitsPerOne_pos.ne']
  rw [hInt, value_eq]
  exact compare_of_strictMono (fun _ _ => div_unitsPerOne_lt) _ _

end SolutionFlow.Double
