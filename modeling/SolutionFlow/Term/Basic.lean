import SolutionFlow.Number.Text

/-!
Terms: what a query variable can be bound to. They are resources (IRIs and blank nodes) and
literals. Numbers and truth values are held as such, every other literal as text with its language
or datatype.
-/

namespace SolutionFlow

/-- A resource or a literal. Terms are equal if they are written alike and of one kind, so the
integer one and the double one are different terms. -/
inductive Term where
  | iri (text : String)
  | blank (label : String)
  | boolean (value : Bool)
  | integer (value : Int64)
  | double (value : Double)
  | string (text : String)
  | langString (text language : String)
  | typed (text datatype : String)
deriving DecidableEq, Inhabited, Hashable

namespace Term

/-- The datatype of the given name among the predefined ones. -/
def xsd (name : String) : String := "http://www.w3.org/2001/XMLSchema#" ++ name

def isLiteral : Term → Bool
  | .iri _ | .blank _ => false
  | _ => true

/-- The lexical form of a literal, or the text of a resource. -/
def lexical : Term → String
  | .iri text | .blank text | .string text | .langString text _ | .typed text _ => text
  | .boolean value => if value then "true" else "false"
  | .integer value => toString value.toInt
  | .double value => value.positional

/-- The datatype of a literal; resources and strings with a language have none. -/
def datatype? : Term → Option String
  | .boolean _ => some (xsd "boolean")
  | .integer _ => some (xsd "integer")
  | .double _ => some (xsd "double")
  | .string _ => some (xsd "string")
  | .typed _ datatype => some datatype
  | .iri _ | .blank _ | .langString _ _ => none

/-- The number that a numeric literal stands for, rounded to a double. -/
def toDouble? : Term → Option Double
  | .integer value => some (Double.ofInt value.toInt)
  | .double value => some value
  | _ => none

end Term

end SolutionFlow
