import SolutionFlow.Algebra.Projection
import SolutionFlow.Flow.Emission
import SolutionFlow.Flow.Environment
import SolutionFlow.Solution.Merge

/-!
Operators that look at each row by itself: projections, filters, computed bindings, and the
correction of rows that were computed from a shortened seed.
-/

namespace SolutionFlow

/-- A projection of each row. -/
structure Projecting where
  list : List Rename
  seed : Solution

namespace Projecting

def pipe : Pipe Projecting := .ofRow fun s row => do
  let more ← Emission.push (Projection.onto s.list row s.seed)
  return (more, s)

end Projecting

/-- Several projections of each row. Each remembers the last row that it gave, and does not give it
twice in succession. -/
structure MultiProjecting where
  seed : Solution
  lists : List (List Rename × Option Solution)

namespace MultiProjecting

def new (lists : List (List Rename)) (seed : Solution) : MultiProjecting :=
  ⟨seed, lists.map fun list => (list, none)⟩

/-- Projects a row with one list after another. After a refusal the rest of them is left alone. -/
def pushEach (seed row : Solution) :
    List (List Rename × Option Solution) →
      Emission (Bool × List (List Rename × Option Solution))
  | [] => return (true, [])
  | (list, last) :: rest => do
    let projected := Projection.fresh list row seed
    if last = some projected then
      let (more, rest) ← pushEach seed row rest
      return (more, (list, last) :: rest)
    else if ← Emission.push projected then
      let (more, rest) ← pushEach seed row rest
      return (more, (list, some projected) :: rest)
    else return (false, (list, some projected) :: rest)

def pipe : Pipe MultiProjecting := .ofRow fun s row => do
  let (more, lists) ← pushEach s.seed row s.lists
  return (more, { s with lists := lists })

end MultiProjecting

/-- A condition that rows have to meet, and the names that it may see; all of them, if none are
given. -/
structure Filtering where
  condition : Expr
  visible : Option (List String)

namespace Filtering

/-- What the condition sees of a row. -/
def view (s : Filtering) (row : Solution) : Solution :=
  match s.visible with
  | some names => row.restrict names
  | none => row

def pipe (env : Environment) : Pipe Filtering := .ofRow fun s row => do
  match ← Emission.asking env fun around => (s.condition.admits around (s.view row)).run with
  | .ok true =>
    let more ← Emission.push row
    return (more, s)
  | .ok false => return (true, s)
  | .error e =>
    Emission.report e
    return (false, s)

end Filtering

/-- Bindings that are computed for each row. -/
structure Extending where
  elements : List (String × Expr)

namespace Extending

/-- Adds the computed bindings, of which a later one sees the earlier ones. An expression without a
value binds nothing; an aggregate is left to the group below. -/
def extend (around : Surroundings) :
    Solution → List (String × Expr) → ExceptT QueryError Timed Solution
  | row, [] => return row
  | row, (name, x) :: rest =>
    if x.isAggregate then extend around row rest
    else do
      match ← x.value? around row with
      | some term => extend around (row.insert name term) rest
      | none => extend around row rest

def pipe (env : Environment) : Pipe Extending := .ofRow fun s row => do
  match ← Emission.asking env fun around => (extend around row s.elements).run with
  | .ok extended =>
    let more ← Emission.push extended
    return (more, s)
  | .error e =>
    Emission.report e
    return (false, s)

end Extending

/-- The seed of an operator, and those of its names that were kept from the arguments. -/
structure Correcting where
  seed : Solution
  names : List String

namespace Correcting

/-- A row together with what the seed binds the held-back names to; a row in conflict with the seed
is dropped. -/
def correct? (s : Correcting) (row : Solution) : Option Solution :=
  if s.seed.compatible row then
    some (s.names.foldl
      (fun row name =>
        match row.get? name, s.seed.get? name with
        | none, some term => row.insert name term
        | _, _ => row)
      row)
  else none

def pipe : Pipe Correcting := .ofRow fun s row =>
  match s.correct? row with
  | some corrected => do
    let more ← Emission.push corrected
    return (more, s)
  | none => return (true, s)

end Correcting

end SolutionFlow
