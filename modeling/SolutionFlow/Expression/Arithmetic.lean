import SolutionFlow.Algebra.Plan
import SolutionFlow.Error.Expression

/-!
Arithmetic in expressions: exact on integers as long as the result is one, and on doubles otherwise.
A quotient is always a double.
-/

namespace SolutionFlow.Arithmetic

/-- A whole number as an integer term, if it fits. -/
def integer (value : Int) : Except EvalError Term :=
  if Int64.minValue.toInt ≤ value ∧ value ≤ Int64.maxValue.toInt then
    .ok (.integer (Int64.ofInt value))
  else .error (.type .overflow)

def onIntegers (op : Arithmetic) (a b : Int) : Except EvalError Term :=
  match op with
  | .add => integer (a + b)
  | .sub => integer (a - b)
  | .mul => integer (a * b)
  | .div =>
    if b = 0 then .error (.type .divisionByZero)
    else .ok (.double (Double.ofInt a / Double.ofInt b))

def onDoubles (op : Arithmetic) (a b : Double) : Except EvalError Term :=
  match op with
  | .add => .ok (.double (a + b))
  | .sub => .ok (.double (a - b))
  | .mul => .ok (.double (a * b))
  | .div => if b.isZero then .error (.type .divisionByZero) else .ok (.double (a / b))

/-- Applies an operation to two terms. -/
def apply (op : Arithmetic) (left right : Term) : Except EvalError Term :=
  match left, right with
  | .integer a, .integer b => op.onIntegers a.toInt b.toInt
  | _, _ =>
    match left.toDouble?, right.toDouble? with
    | some a, some b => op.onDoubles a b
    | _, _ => .error (.type (.notNumeric left right))

end SolutionFlow.Arithmetic
