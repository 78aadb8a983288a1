import SolutionFlow.Error.Query
import SolutionFlow.Term.Printer

/-!
Why an expression has no value on a row. A fault of type concerns that row alone, and operators
recover from it; a failed query never becomes one.
-/

namespace SolutionFlow

/-- Why an expression does not apply to its operands. -/
inductive TypeFault where
  | unbound (name : String)
  | noTruthValue (term : Term)
  | incomparable (left right : Term)
  | notNumeric (left right : Term)
  | overflow
  | divisionByZero
  | blankText (label : String)
  | strayAggregate
  /-- a fault that a function outside this library describes in its own words -/
  | described (what : String)

/-- Why an expression has no value on a row. -/
inductive EvalError where
  | type (fault : TypeFault)
  | query (error : QueryError)

namespace TypeFault

def message : TypeFault → String
  | .unbound name => "unbound variable ?" ++ name
  | .noTruthValue term => "no boolean value for " ++ term.display
  | .incomparable left right => "cannot order " ++ left.display ++ " and " ++ right.display
  | .notNumeric left right =>
    "non-numeric operands " ++ left.display ++ " and " ++ right.display
  | .overflow => "integer overflow"
  | .divisionByZero => "division by zero"
  | .blankText label => "STR of blank node _:" ++ label
  | .strayAggregate => "aggregate outside of a group"
  | .described what => what

end TypeFault

namespace EvalError

def message : EvalError → String
  | .type fault => "Type error: " ++ fault.message
  | .query error => error.message

/-- The failure of a query that cannot go on without the value. -/
def toQueryError : EvalError → QueryError
  | .type fault => .evaluation fault.message
  | .query error => error

end EvalError

end SolutionFlow
