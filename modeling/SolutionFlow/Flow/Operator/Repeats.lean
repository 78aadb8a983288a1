import SolutionFlow.Flow.Emission
import SolutionFlow.Spill.MemberSet

/-!
Operators that drop repeated rows: all of them, or only those that repeat the row right before.
-/

namespace SolutionFlow

/-- The rows that have come so far. -/
structure Deduplicating where
  seen : MemberSet Solution

namespace Deduplicating

/-- Hands on a row that has not come before. If the set of rows fails, so does the stream, and the
set is closed. -/
def onRow (s : Deduplicating) (row : Solution) : Emission (Bool × Deduplicating) :=
  match s.seen.add row with
  | (.ok true, seen) => do
    let more ← Emission.push row
    return (more, ⟨seen⟩)
  | (.ok false, seen) => return (true, ⟨seen⟩)
  | (.error .closed, seen) => return (false, ⟨seen⟩)
  | (.error e, seen) => do
    Emission.report (.spill e)
    return (false, ⟨seen.close⟩)

def pipe : Pipe Deduplicating where
  onRow := onRow
  onFinish s := do
    Emission.finished
    return ⟨s.seen.close⟩
  onFail s error := do
    Emission.report error
    return ⟨s.seen.close⟩

end Deduplicating

/-- The row before. -/
structure Reducing where
  previous : Option Solution

namespace Reducing

def pipe : Pipe Reducing := .ofRow fun s row =>
  if s.previous = some row then return (true, s)
  else do
    let more ← Emission.push row
    return (more, ⟨some row⟩)

end Reducing

end SolutionFlow
