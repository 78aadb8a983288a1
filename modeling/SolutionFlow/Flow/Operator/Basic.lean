import SolutionFlow.Flow.Operator.Joins
import SolutionFlow.Flow.Operator.Repeats
import SolutionFlow.Flow.Operator.Rows
import SolutionFlow.Flow.Operator.SetFilter
import SolutionFlow.Flow.Operator.Sorting
import SolutionFlow.Flow.Operator.Window

/-!
The operators of a running query.

An operator receives what its arguments emit. The first argument may lead: each of its rows, or its
end, starts another argument, whose emissions then come in on a branch of their own. `pipe` is how
an operator answers a branch, and `lead` how it answers its first argument.
-/

namespace SolutionFlow

/-- An operator under way. -/
inductive Operator where
  | project (s : Projecting)
  | multiProject (s : MultiProjecting)
  | filter (s : Filtering)
  | extend (s : Extending)
  | slice (s : Window)
  | distinct (s : Deduplicating)
  | reduced (s : Reducing)
  | order (s : Sorting)
  | correct (s : Correcting)
  | join (s : Joining)
  | leftJoin (s : LeftJoining)
  | union (s : Completion)
  | setFilter (s : SetFilter)

namespace Operator

/-- What an operator does about the branch with number `k`. An operator of one argument takes it for
a branch. -/
def react (env : Environment) (k : Nat) : Operator → Reaction Operator
  | .project s => Projecting.pipe.react s .project
  | .multiProject s => MultiProjecting.pipe.react s .multiProject
  | .filter s => (Filtering.pipe env).react s .filter
  | .extend s => (Extending.pipe env).react s .extend
  | .slice s => Window.pipe.react s .slice
  | .distinct s => Deduplicating.pipe.react s .distinct
  | .reduced s => Reducing.pipe.react s .reduced
  | .order s => (Sorting.pipe env).react s .order
  | .correct s => Correcting.pipe.react s .correct
  | .join s => Joining.branchPipe.react s .join
  | .leftJoin s => (LeftJoining.branchPipe env k).react s .leftJoin
  | .union s => Completion.pipe.react s .union
  | .setFilter s => SetFilter.leftPipe.react s .setFilter

/-- How an operator answers the branch with number `k`. -/
def pipe (env : Environment) (k : Nat) : Pipe Operator := .ofReaction (react env k)

variable {κ : Type}

/-- Starts another argument and answers what it emits at once as branch `k`. -/
def openBranch (env : Environment) (k : Nat) (op : Operator) (branch : Emission κ)
    (opened : List κ) : Emission (Operator × List κ) := do
  let (child, op) ← (pipe env k).through op branch
  return (op, opened ++ [child])

/-- Answers a row of the first argument. In a join it opens a branch; before an intersection or a
difference it is collected. -/
def leadRow (env : Environment) (spawn : Solution → Emission κ) (op : Operator) (opened : List κ)
    (row : Solution) : Emission (Bool × Operator × List κ) :=
  match op with
  | .join s => do
    match ← s.openBranch with
    | some s => return (true, ← openBranch env 0 (.join s) (spawn row) opened)
    | none => return (false, op, opened)
  | .leftJoin s => do
    match ← s.openBranch row with
    | some t => return (true, ← openBranch env s.branches.length (.leftJoin t) (spawn row) opened)
    | none => return (false, op, opened)
  | .setFilter s => do
    let (more, s) ← s.onRightRow row
    return (more, .setFilter s, opened)
  | op => do
    let (more, op) ← (op.react env 0).onRow row
    return (more, op, opened)

/-- Answers the end of the first argument. With it the left rows of an intersection or a difference
are asked for. -/
def leadFinish (env : Environment) (spawn : Solution → Emission κ) (op : Operator)
    (opened : List κ) : Emission (Operator × List κ) :=
  match op with
  | .leftJoin s => do
    return (.leftJoin { s with completion := ← s.completion.finish }, opened)
  | .setFilter s => openBranch env 0 op (spawn s.seed) opened
  | op => do
    return (← (op.react env 0).onFinish, opened)

/-- How an operator answers its first argument, together with the branches that this opens.
`spawn` starts the argument of a branch from a seed. -/
def lead (env : Environment) (spawn : Solution → Emission κ) : Pipe (Operator × List κ) where
  onRow := fun (op, opened) row => leadRow env spawn op opened row
  onFinish := fun (op, opened) => leadFinish env spawn op opened
  onFail := fun (op, opened) error => do
    return (← (op.react env 0).onFail error, opened)

end Operator

end SolutionFlow
