import SolutionFlow.Algebra.Plan

/-!
The store: statements in the order in which they were added, each at most once, and how a pattern
matches one of them.
-/

namespace SolutionFlow

/-- A statement, in a named graph or in the default one. -/
structure Quad where
  subject : Term
  predicate : Term
  object : Term
  graph : Option Term
deriving DecidableEq

/-- Statements in the order of their arrival. -/
structure Dataset where
  quads : List Quad

namespace Dataset

def empty : Dataset := ⟨[]⟩

def contains (d : Dataset) (q : Quad) : Bool := d.quads.contains q

/-- Adds a statement at the end; one that is present already changes nothing. -/
def add (d : Dataset) (q : Quad) : Dataset :=
  if d.contains q then d else ⟨d.quads ++ [q]⟩

def ofList (quads : List Quad) : Dataset := quads.foldl add empty

def size (d : Dataset) : Nat := d.quads.length

/-- Whether a term is the wanted one, if one is wanted. -/
def isWanted (wanted : Option Term) (term : Term) : Bool :=
  match wanted with
  | none => true
  | some w => decide (w = term)

/-- The statements with the given terms, in order. A wanted graph excludes the default graph; with
none wanted, all graphs count. -/
def find (d : Dataset) (subject predicate object graph : Option Term) : List Quad :=
  d.quads.filter fun q =>
    isWanted subject q.subject && isWanted predicate q.predicate && isWanted object q.object &&
      (graph.isNone || decide (q.graph = graph))

end Dataset

namespace QuadPattern

/-- Matches one place of a pattern: a constant has to be the term, and a variable that is bound
already has to be bound to it. -/
def bindSlot (row : Solution) (slot : Slot) (term : Term) : Option Solution :=
  match slot.constant with
  | some c => if c = term then some row else none
  | none =>
    match row.get? slot.name with
    | some bound => if bound = term then some row else none
    | none => some (row.insert slot.name term)

/-- Matches a pattern with a statement, starting from the bindings at hand. In the default graph a
variable for the graph stays unbound. -/
def bind? (p : QuadPattern) (seed : Solution) (q : Quad) : Option Solution :=
  if p.scope = .named ∧ q.graph = none then none
  else do
    let row ← bindSlot seed p.subject q.subject
    let row ← bindSlot row p.predicate q.predicate
    let row ← bindSlot row p.object q.object
    match p.graph, q.graph with
    | some slot, some graph => bindSlot row slot graph
    | _, _ => some row

/-- The solutions of a pattern over a store, one for each matching statement. -/
def solutions (p : QuadPattern) (d : Dataset) (seed : Solution) : List Solution :=
  (d.find (p.subject.resolve seed) (p.predicate.resolve seed) (p.object.resolve seed)
    (p.graph.bind fun slot => slot.resolve seed)).filterMap (p.bind? seed)

end QuadPattern

end SolutionFlow
