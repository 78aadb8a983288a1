import SolutionFlow.Algebra.Names
import SolutionFlow.Flow.Environment
import SolutionFlow.Flow.Operator.Completion

/-!
Joins: every row of the left argument starts an evaluation of the right argument that is seeded with
it. A left join also hands on each left row for which no right row passes the condition.
-/

namespace SolutionFlow

/-- A join under way. -/
structure Joining where
  right : Plan
  scope : Scope
  completion : Completion

namespace Joining

/-- Whether a left row is still of use: nothing has been refused and the consumer is there. -/
def isWanted (c : Completion) : Emission Bool :=
  if c.stopped then return false
  else do
    return !(← Emission.isGone)

/-- Receives the rows of the right branches. -/
def branchPipe : Pipe Joining where
  onRow s row := do
    let (more, completion) ← s.completion.forward row
    return (more, { s with completion := completion })
  onFinish s := do
    return { s with completion := ← s.completion.finish }
  onFail s error := do
    Emission.report error
    return s

/-- Receives a left row: opens a branch for it, if it is still wanted. -/
def openBranch (s : Joining) : Emission (Option Joining) := do
  if ← isWanted s.completion then return some { s with completion := s.completion.begin }
  else return none

end Joining

/-- A left row, and whether no right row has been found for it so far. -/
structure OptionalBranch where
  left : Solution
  unmatched : Bool

/-- A left join under way, with a branch for each left row so far. The condition sees the visible
names only. -/
structure LeftJoining where
  right : Plan
  condition : Option Expr
  visible : List String
  scope : Scope
  completion : Completion
  branches : List OptionalBranch

namespace LeftJoining

/-- Notes that a branch has found a right row. -/
def markMatched (s : LeftJoining) (k : Nat) : LeftJoining :=
  { s with branches := s.branches.modify k fun b => { b with unmatched := false } }

/-- Hands on a right row of a branch. -/
def accept (s : LeftJoining) (k : Nat) (row : Solution) : Emission (Bool × LeftJoining) := do
  let (more, completion) ← s.completion.forward row
  return (more, { s.markMatched k with completion := completion })

/-- Whether the condition lets a right row through. -/
def admits (around : Surroundings) (s : LeftJoining) (row : Solution) :
    ExceptT QueryError Timed Bool :=
  match s.condition with
  | none => return true
  | some condition => condition.admits around (row.restrict s.visible)

def onBranchRow (env : Environment) (k : Nat) (s : LeftJoining) (row : Solution) :
    Emission (Bool × LeftJoining) :=
  if s.completion.stopped then return (false, s)
  else do
    match ← Emission.asking env fun around => (s.admits around row).run with
    | .ok true => s.accept k row
    | .ok false => return (true, s)
    | .error e =>
      Emission.report e
      return (false, s)

/-- Ends a branch. Without a right row, the left row is handed on by itself. -/
def onBranchFinish (k : Nat) (s : LeftJoining) : Emission LeftJoining :=
  match s.branches[k]? with
  | some ⟨left, true⟩ => do
    let (_, completion) ← s.completion.forward left
    return { s with completion := ← completion.finish }
  | _ => do
    return { s with completion := ← s.completion.finish }

/-- Receives the right rows of the branch with number `k`. -/
def branchPipe (env : Environment) (k : Nat) : Pipe LeftJoining where
  onRow := onBranchRow env k
  onFinish := onBranchFinish k
  onFail s error := do
    Emission.report error
    return s

/-- Receives a left row: opens a branch for it, if it is still wanted. -/
def openBranch (s : LeftJoining) (left : Solution) : Emission (Option LeftJoining) := do
  if ← Joining.isWanted s.completion then
    return some { s with
      completion := s.completion.begin, branches := s.branches ++ [⟨left, true⟩] }
  else return none

/-- The names that the right argument or the condition mentions and the seed binds, but that the
left argument cannot bind. They are kept from the arguments and put back into the rows. -/
def problemNames (left right : List String) (seed : Solution) : List String :=
  (sortedNames right).filter fun name => !left.contains name && seed.binds name

end LeftJoining

end SolutionFlow
