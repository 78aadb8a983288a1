import SolutionFlow.Algebra.Plan
import SolutionFlow.Flow.Emission
import SolutionFlow.Flow.Environment
import SolutionFlow.Spill.MemberSet
import SolutionFlow.Spill.Sorter

/-!
Sorting: rows are collected with their keys and handed on in order when their stream ends. Rows with
equal keys stay in the order in which they came.
-/

namespace SolutionFlow

/-- What a row is sorted by: the values of the sort expressions, each with its direction, and then
the number of the row, by which no two keys are equal. -/
structure SortKey where
  values : List (Direction × Option Term)
  arrival : Nat
  row : Solution

namespace SortKey

/-- The order of two values in a direction. -/
def cmpDirected : Direction → Option Term → Option Term → Ordering
  | .ascending, a, b => Term.cmpOptional a b
  | .descending, a, b => (Term.cmpOptional a b).swap

/-- The lexicographic order of two lists of values, in the directions of the first. -/
def cmpValues :
    List (Direction × Option Term) → List (Direction × Option Term) → Ordering
  | (direction, a) :: as, (_, b) :: bs => (cmpDirected direction a b).then (cmpValues as bs)
  | _, _ => .eq

def cmp (a b : SortKey) : Ordering :=
  (cmpValues a.values b.values).then (compare a.arrival b.arrival)

instance : Ord SortKey := ⟨cmp⟩

end SortKey

/-- A sort under way: the rows so far and, where repeated rows are dropped, which rows have come. -/
structure Sorting where
  keys : List (Direction × Expr)
  sorter : Sorter SortKey
  seen : Option (MemberSet Solution)
  arrivals : Nat

namespace Sorting

/-- A sort that keeps as many rows as its place in the query can use. -/
def new (keys : List (Direction × Expr)) (scope : Scope) (spill : SpillOptions) : Sorting :=
  ⟨keys, .new scope.sortLimit spill, if scope.sortDistinct then some (.new spill) else none, 0⟩

/-- The values of the sort expressions on a row. -/
def values (around : Surroundings) (row : Solution) :
    List (Direction × Expr) → ExceptT QueryError Timed (List (Direction × Option Term))
  | [] => return []
  | (direction, x) :: rest => do
    let value ← x.value? around row
    let others ← values around row rest
    return (direction, value) :: others

/-- Gives up all that was collected. -/
def close (s : Sorting) : Sorting :=
  { s with sorter := s.sorter.close, seen := s.seen.map (·.close) }

/-- Ends a sort with a failure. -/
def failWith (s : Sorting) (error : QueryError) : Emission Sorting := do
  Emission.report error
  return s.close

/-- The reply to a row that a store has refused. A closed store has been reported before. -/
def refuse (s : Sorting) : SpillError → Emission (Bool × Sorting)
  | .closed => return (false, s)
  | e => do
    return (false, ← s.failWith (.spill e))

/-- Notes a row, and tells whether it counts. -/
def note (s : Sorting) (row : Solution) : Except SpillError Bool × Sorting :=
  match s.seen with
  | none => (.ok true, s)
  | some seen =>
    let (isNew, seen) := seen.add row
    (isNew, { s with seen := some seen })

/-- Collects a row under its key. -/
def collect (env : Environment) (s : Sorting) (row : Solution) : Emission (Bool × Sorting) := do
  match ← Emission.asking env fun around => (values around row s.keys).run with
  | .error e => return (false, ← s.failWith e)
  | .ok vs =>
    let (added, sorter) := s.sorter.add ⟨vs, s.arrivals, row⟩
    let s := { s with sorter := sorter, arrivals := s.arrivals + 1 }
    match added with
    | .ok () => return (true, s)
    | .error e => s.refuse e

def onRow (env : Environment) (s : Sorting) (row : Solution) : Emission (Bool × Sorting) :=
  match s.note row with
  | (.ok true, s) => s.collect env row
  | (.ok false, s) => return (true, s)
  | (.error e, s) => s.refuse e

/-- The rows of sorted keys, each as often as its key. -/
def rows (sorted : Counted SortKey) : List Solution :=
  sorted.flatMap fun e => List.replicate e.2 e.1.row

/-- Hands on all rows in order and then the end of the stream. A refusal ends it as well. -/
def onFinish (s : Sorting) : Emission Sorting :=
  let s : Sorting := { s with seen := s.seen.map (·.close) }
  match s.sorter.drain with
  | (.error .closed, _) => return s
  | (.error e, sorter) => { s with sorter := sorter }.failWith (.spill e)
  | (.ok sorted, sorter) => do
    if ← Emission.pushAll (rows sorted) then Emission.finished
    return { s with sorter := sorter.close }

def pipe (env : Environment) : Pipe Sorting where
  onRow := onRow env
  onFinish := onFinish
  onFail := failWith

end Sorting

end SolutionFlow
