import SolutionFlow.Algebra.Plan

/-!
Projection: which variables of a row leave an operator, and under which names.
-/

namespace SolutionFlow.Projection

/-- The names that a projection binds. -/
def targets (list : List Rename) : List String := list.map (·.target)

/-- Binds each target to what `value` gives for it, one after another. -/
def collect (value : Rename → Option Term) (start : Solution) (list : List Rename) : Solution :=
  list.foldl
    (fun row rename =>
      match value rename with
      | some term => row.insert rename.target term
      | none => row)
    start

/-- A projection that keeps all bindings of the seed and puts the projected ones over them. -/
def onto (list : List Rename) (row seed : Solution) : Solution :=
  collect (fun rename => row.get? rename.source) seed list

/-- A projection that starts from nothing; a name that the row does not bind is taken from the
seed. -/
def fresh (list : List Rename) (row seed : Solution) : Solution :=
  collect (fun rename => (row.get? rename.source).or (seed.get? rename.target)) .empty list

end SolutionFlow.Projection
