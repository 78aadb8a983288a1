import SolutionFlow.Algebra.Plan
import SolutionFlow.Flow.Emission
import SolutionFlow.Flow.Scope
import SolutionFlow.Solution.Merge
import SolutionFlow.Spill.MemberSet

/-!
Intersection and difference: the right argument is collected first, and then the left argument is
evaluated and filtered by what was collected.
-/

namespace SolutionFlow

inductive SetOperator where
  | intersection
  | difference
deriving DecidableEq

namespace SetOperator

/-- Whether a left row stays. An intersection keeps those that are among the right rows; a
difference drops those that share a name with a compatible right row. -/
def keeps (op : SetOperator) (right : MemberSet Solution) (row : Solution) :
    Except SpillError Bool :=
  match op with
  | .intersection => right.contains row
  | .difference =>
    (right.any fun excluded => excluded.sharesName row && excluded.compatible row).map (!·)

end SetOperator

/-- An intersection or difference under way: what to evaluate for the left rows, and the right rows
so far. -/
structure SetFilter where
  op : SetOperator
  left : Plan
  seed : Solution
  scope : Scope
  right : MemberSet Solution

namespace SetFilter

/-- Gives up the right rows. -/
def close (s : SetFilter) : SetFilter := { s with right := s.right.close }

def failWith (s : SetFilter) (error : QueryError) : Emission SetFilter := do
  Emission.report error
  return s.close

/-- The reply to a row if the right rows are not at hand. That they were given up has been reported
before. -/
def refuse (s : SetFilter) : SpillError → Emission (Bool × SetFilter)
  | .closed => return (false, s)
  | e => do
    return (false, ← s.failWith (.spill e))

/-- Collects a right row. -/
def onRightRow (s : SetFilter) (row : Solution) : Emission (Bool × SetFilter) :=
  let (added, right) := s.right.add row
  let s := { s with right := right }
  match added with
  | .ok _ => return (true, s)
  | .error e => s.refuse e

/-- Hands on a left row if it stays. -/
def onLeftRow (s : SetFilter) (row : Solution) : Emission (Bool × SetFilter) :=
  match s.op.keeps s.right row with
  | .ok true => do
    let more ← Emission.push row
    return (more, s)
  | .ok false => return (true, s)
  | .error e => s.refuse e

/-- Receives the left rows. -/
def leftPipe : Pipe SetFilter where
  onRow := onLeftRow
  onFinish s := do
    Emission.finished
    return s.close
  onFail := failWith

end SetFilter

end SolutionFlow
