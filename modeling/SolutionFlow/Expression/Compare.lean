import SolutionFlow.Algebra.Plan
import SolutionFlow.Error.Expression

/-!
Comparisons in expressions. They follow values, unlike the order of terms: numbers are compared as
doubles, texts only with texts of the same kind, and what is not comparable can still be equal.
-/

namespace SolutionFlow

/-- The order of two terms by value, if they have one. -/
def Term.compare? (left right : Term) : Option Ordering :=
  match left.toDouble?, right.toDouble? with
  | some a, some b => a.compare? b
  | _, _ =>
    match left, right with
    | .string a, .string b => some (compare a b)
    | .boolean a, .boolean b => some (compare a b)
    | .langString a languageA, .langString b languageB =>
      if languageA = languageB then some (compare a b) else none
    | .typed a datatypeA, .typed b datatypeB =>
      if datatypeA = datatypeB then some (compare a b) else none
    | _, _ => none

namespace Comparison

/-- Whether a comparison accepts two operands in this order. -/
def accepts : Comparison → Ordering → Bool
  | .eq, o => o == .eq
  | .ne, o => o != .eq
  | .lt, o => o == .lt
  | .le, o => o != .gt
  | .gt, o => o == .gt
  | .ge, o => o != .lt

/-- Applies a comparison. Terms without an order are equal if they are the same, and neither less
nor greater. -/
def apply (op : Comparison) (left right : Term) : Except EvalError Bool :=
  match left.compare? right with
  | some o => .ok (op.accepts o)
  | none =>
    match op with
    | .eq => .ok (decide (left = right))
    | .ne => .ok (decide (left ≠ right))
    | _ => .error (.type (.incomparable left right))

end Comparison

end SolutionFlow
