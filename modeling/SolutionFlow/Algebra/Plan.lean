import SolutionFlow.Flow.Iteration

/-!
Query plans: trees of operators over solutions, with expressions in their conditions, computed
bindings, sort keys and aggregates. An expression may ask whether a plan has any solution, so the
two kinds of tree are declared together.
-/

namespace SolutionFlow

/-- One place of a pattern: a variable, or a constant that goes by a name. -/
structure Slot where
  name : String
  constant : Option Term

namespace Slot

def ofVariable (name : String) : Slot := ⟨name, none⟩

def isConstant (s : Slot) : Bool := s.constant.isSome

/-- The constant of a place, or else the term that the solution binds to its variable. -/
def resolve (s : Slot) (row : Solution) : Option Term := s.constant.or (row.get? s.name)

/-- The place of a textual pattern: a variable behind a question mark, any other text an IRI. -/
def ofText (text : String) : Slot :=
  if text.startsWith "?" then .ofVariable (text.drop 1).toString
  else ⟨"_const_" ++ text, some (.iri text)⟩

/-- The names of the variables among some places. -/
def variableNames (slots : List Slot) : List String :=
  (slots.filter fun s => !s.isConstant).map (·.name)

end Slot

/-- Whether a pattern matches statements of all graphs or only of the named ones. -/
inductive GraphScope where
  | all
  | named
deriving DecidableEq

/-- A statement with variables. Its graph is matched only if the pattern has a place for it. -/
structure QuadPattern where
  scope : GraphScope
  subject : Slot
  predicate : Slot
  object : Slot
  graph : Option Slot

namespace QuadPattern

def slots (p : QuadPattern) : List Slot := [p.subject, p.predicate, p.object] ++ p.graph.toList

/-- The pattern of three texts, over all graphs. -/
def ofText (subject predicate object : String) : QuadPattern :=
  ⟨.all, .ofText subject, .ofText predicate, .ofText object, none⟩

end QuadPattern

/-- The two ends of a path and the graph that it runs in. -/
structure PathEnds where
  scope : GraphScope
  subject : Slot
  object : Slot
  graph : Option Slot

namespace PathEnds

def slots (p : PathEnds) : List Slot := [p.subject, p.object] ++ p.graph.toList

end PathEnds

/-- A source of solutions outside the store, called with the bindings at hand. -/
structure ExternalSet where
  names : List String
  call : Solution → Call

/-- One variable on its way out of a projection. -/
structure Rename where
  source : String
  target : String
deriving DecidableEq

inductive Comparison where
  | eq | ne | lt | le | gt | ge
deriving DecidableEq

inductive Arithmetic where
  | add | sub | mul | div
deriving DecidableEq

inductive AggregateFunction where
  | count | sum | min | max | avg | sample
deriving DecidableEq

inductive Direction where
  | ascending
  | descending
deriving DecidableEq

mutual

/-- An expression over the variables of a row. -/
inductive Expr where
  | var (name : String)
  | constant (term : Term)
  | bound (name : String)
  | not (arg : Expr)
  | and (left right : Expr)
  | or (left right : Expr)
  | compare (op : Comparison) (left right : Expr)
  | arith (op : Arithmetic) (left right : Expr)
  | str (arg : Expr)
  | now
  | aggregate (call : Aggregate)
  | exists (plan : Plan)

/-- An aggregate over the rows of a group. Without an argument it counts the rows. -/
inductive Aggregate where
  | mk (function : AggregateFunction) (distinct : Bool) (arg : Option Expr)

/-- An operator with its arguments. -/
inductive Plan where
  | pattern (pattern : QuadPattern)
  | external (set : ExternalSet)
  | zeroLengthPath (ends : PathEnds)
  | arbitraryLengthPath (ends : PathEnds) (path : Plan) (minLength : Nat)
  | inline (names : List String) (rows : List Solution)
  | singleton
  | empty
  | root (arg : Plan)
  | project (arg : Plan) (list : List Rename)
  | multiProject (arg : Plan) (lists : List (List Rename))
  | filter (arg : Plan) (condition : Expr)
  | extend (arg : Plan) (elements : List (String × Expr))
  | slice (arg : Plan) (offset limit : Option UInt64)
  | distinct (arg : Plan)
  | reduced (arg : Plan)
  | group (arg : Plan) (names : List String) (elements : List (String × Aggregate))
  | order (arg : Plan) (keys : List (Direction × Expr))
  | service (endpoint : Slot) (arg : Plan) (silent : Bool)
  | describe (arg : Plan)
  | join (left right : Plan)
  | leftJoin (left right : Plan) (condition : Option Expr)
  | union (left right : Plan)
  | intersection (left right : Plan)
  | difference (left right : Plan)

end

instance : Inhabited Expr := ⟨.now⟩
instance : Inhabited Plan := ⟨.empty⟩

namespace Aggregate

def function : Aggregate → AggregateFunction
  | .mk function _ _ => function

def distinct : Aggregate → Bool
  | .mk _ distinct _ => distinct

def arg : Aggregate → Option Expr
  | .mk _ _ arg => arg

end Aggregate

namespace Expr

def isAggregate : Expr → Bool
  | .aggregate _ => true
  | _ => false

end Expr

namespace Plan

/-- The name of the operator at the top of a plan. -/
def kind : Plan → String
  | .pattern _ => "StatementPattern"
  | .external _ => "ExternalSet"
  | .zeroLengthPath _ => "ZeroLengthPath"
  | .arbitraryLengthPath .. => "ArbitraryLengthPath"
  | .inline .. => "BindingSetAssignment"
  | .singleton => "SingletonSet"
  | .empty => "EmptySet"
  | .root _ => "QueryRoot"
  | .project .. => "Projection"
  | .multiProject .. => "MultiProjection"
  | .filter .. => "Filter"
  | .extend .. => "Extension"
  | .slice .. => "Slice"
  | .distinct _ => "Distinct"
  | .reduced _ => "Reduced"
  | .group .. => "Group"
  | .order .. => "Order"
  | .service .. => "Service"
  | .describe _ => "Describe"
  | .join .. => "Join"
  | .leftJoin .. => "LeftJoin"
  | .union .. => "Union"
  | .intersection .. => "Intersection"
  | .difference .. => "Difference"

end Plan

end SolutionFlow
