import SolutionFlow.Error.Expression

/-!
Truth values of terms, and how the truth values of two operands combine when either may be missing.
A missing operand matters only where the other one does not settle the answer.
-/

namespace SolutionFlow

/-- The outcome of asking whether an expression holds. -/
abbrev Truth := Except EvalError Bool

/-- The effective boolean value: numbers other than zero and texts other than the empty one hold. -/
def Term.truth : Term → Truth
  | .boolean value => .ok value
  | .integer value => .ok (decide (value ≠ 0))
  | .double value => .ok (!value.isZero && !value.isNaN)
  | .string text | .langString text _ => .ok (!text.isEmpty)
  | term => .error (.type (.noTruthValue term))

namespace Truth

/-- Conjunction: false if an operand is, and else the first error if there is one. -/
def and : Truth → Truth → Truth
  | .ok false, _ => .ok false
  | .ok true, right => right
  | .error _, .ok false => .ok false
  | .error e, _ => .error e

/-- Disjunction: true if an operand is, and else the first error if there is one. -/
def or : Truth → Truth → Truth
  | .ok true, _ => .ok true
  | .ok false, right => right
  | .error _, .ok true => .ok true
  | .error e, _ => .error e

end Truth

end SolutionFlow
