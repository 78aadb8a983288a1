import SolutionFlow.Clock
import SolutionFlow.Expression.Truth
import SolutionFlow.Expression.Compare
import SolutionFlow.Expression.Arithmetic
import SolutionFlow.Term.Timestamp

/-!
The value of an expression on a row. Evaluation takes time where it asks a nested query, and it may
take the time of the query; so operands are evaluated from the left to the right, each on the clock
that the one before it has left.
-/

namespace SolutionFlow

/-- What an expression may ask for beyond its row and the clock: the first solution of a nested plan
on given bindings. -/
structure Surroundings where
  firstSolution : Plan → Solution → Timed (Except QueryError (Option Solution))

/-- An evaluation that ends with a value or an error, and in either case leaves the clock behind. -/
abbrev Evaluating := ExceptT EvalError Timed

namespace Expr

/-- Whether a value that is found holds. -/
def truthOf (value : Evaluating Term) : Evaluating Bool := do
  let term ← value
  term.truth

/-- Conjunction. The right operand is evaluated only if the left one is not false. -/
def both (left right : Evaluating Bool) : Evaluating Bool := ExceptT.mk do
  match ← left.run with
  | .ok false => return .ok false
  | l => return Truth.and l (← right.run)

/-- Disjunction. The right operand is evaluated only if the left one is not true. -/
def any (left right : Evaluating Bool) : Evaluating Bool := ExceptT.mk do
  match ← left.run with
  | .ok true => return .ok true
  | l => return Truth.or l (← right.run)

/-- The value of an expression on a row. -/
def eval (around : Surroundings) (row : Solution) : Expr → Evaluating Term
  | .var name =>
    match row.get? name with
    | some term => return term
    | none => throw (.type (.unbound name))
  | .constant term => return term
  | .bound name => return .boolean (row.binds name)
  | .not arg => do return .boolean !(← truthOf (arg.eval around row))
  | .and left right => do
    return .boolean (← both (truthOf (left.eval around row)) (truthOf (right.eval around row)))
  | .or left right => do
    return .boolean (← any (truthOf (left.eval around row)) (truthOf (right.eval around row)))
  | .compare op left right => do
    let l ← left.eval around row
    let r ← right.eval around row
    return .boolean (← op.apply l r)
  | .arith op left right => do
    let l ← left.eval around row
    let r ← right.eval around row
    op.apply l r
  | .str arg => do
    match ← arg.eval around row with
    | .blank label => throw (.type (.blankText label))
    | term => return .string term.lexical
  | .now => do return .ofTime (← Clock.readQueryTime)
  | .aggregate _ => throw (.type .strayAggregate)
  | .exists plan => do
    match ← around.firstSolution plan row with
    | .ok first => return .boolean first.isSome
    | .error e => throw (.query e)

/-- Whether an expression holds on a row. -/
def holds (around : Surroundings) (row : Solution) (x : Expr) : Evaluating Bool :=
  truthOf (x.eval around row)

/-- The outcome of an evaluation, in which an error of the type is no value. Only a failed query is
a failure. -/
def settle {α : Type} : Except EvalError α → Except QueryError (Option α)
  | .ok value => .ok (some value)
  | .error (.type _) => .ok none
  | .error (.query e) => .error e

/-- The value of an expression on a row, if it has one. -/
def value? (around : Surroundings) (row : Solution) (x : Expr) :
    ExceptT QueryError Timed (Option Term) :=
  ExceptT.mk (settle <$> (x.eval around row).run)

/-- Whether an expression lets a row through. It does not if its value is of the wrong type. -/
def admits (around : Surroundings) (row : Solution) (x : Expr) : ExceptT QueryError Timed Bool :=
  (·.getD false) <$> ExceptT.mk (settle <$> (x.holds around row).run)

end Expr

end SolutionFlow
