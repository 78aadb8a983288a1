import SolutionFlow.Term.Basic
import SolutionFlow.Text.Quoted

/-!
How messages show a term.
-/

namespace SolutionFlow.Term

/-- An IRI between angle brackets, a blank node behind its mark, a number or truth value bare, and
other literals quoted, with their language or datatype. Doubles are in scientific form. -/
def display : Term → String
  | .iri text => "<" ++ text ++ ">"
  | .blank label => "_:" ++ label
  | .boolean value => if value then "true" else "false"
  | .integer value => toString value.toInt
  | .double value => value.scientific
  | .string text => Text.quoted text
  | .langString text language => Text.quoted text ++ "@" ++ language
  | .typed text datatype => Text.quoted text ++ "^^<" ++ datatype ++ ">"

end SolutionFlow.Term
