import SolutionFlow.Term.Basic

/-!
The order of terms: blank nodes, then IRIs, then literals; of the literals first the numbers by
value, then the truth values, then the rest by lexical form. Numbers of equal value are told apart
by kind and then by bits, so that only equal terms are in one place.
-/

namespace SolutionFlow.Term

/-- The place of a term's kind among the kinds. -/
def kindRank : Term → Nat
  | .blank _ => 0
  | .iri _ => 1
  | .integer _ | .double _ => 2
  | .boolean _ => 3
  | .string _ | .langString _ _ | .typed _ _ => 4

/-- The place of a textual literal among those of equal lexical form. -/
def formRank : Term → Nat
  | .langString _ _ => 1
  | .typed _ _ => 2
  | _ => 0

/-- What tells two textual literals of one form apart: the language or the datatype. -/
def tag : Term → String
  | .langString _ language => language
  | .typed _ datatype => datatype
  | _ => ""

/-- The order of two terms of one kind. An integer goes before a double of the same value. -/
def cmpSameKind : Term → Term → Ordering
  | .integer a, .integer b => compare a.toInt b.toInt
  | .double a, .double b => a.totalCompare b
  | .integer a, .double b => (Double.compareWhole a b).then .lt
  | .double a, .integer b => (Double.compareWhole b a).swap.then .gt
  | .boolean a, .boolean b => compare a b
  | a, b =>
    (compare a.lexical b.lexical).then
      ((compare a.formRank b.formRank).then (compare a.tag b.tag))

/-- The order of terms. -/
def cmp (a b : Term) : Ordering :=
  (compare a.kindRank b.kindRank).then (cmpSameKind a b)

instance : Ord Term := ⟨cmp⟩

/-- The order of sort keys: what is unbound goes before every term. -/
def cmpOptional : Option Term → Option Term → Ordering
  | none, none => .eq
  | none, some _ => .lt
  | some _, none => .gt
  | some a, some b => a.cmp b

end SolutionFlow.Term
