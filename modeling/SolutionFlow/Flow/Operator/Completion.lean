import SolutionFlow.Flow.Emission

/-!
Completion: how an operator that receives several streams ends its own. It counts the open streams,
and the last one to end ends its own, unless a row has been refused before.
-/

namespace SolutionFlow

/-- How many streams are open, and whether a row has been refused. -/
structure Completion where
  openStreams : Nat
  stopped : Bool
deriving DecidableEq

namespace Completion

def new (openStreams : Nat) : Completion := ⟨openStreams, false⟩

/-- Opens another stream. -/
def begin (c : Completion) : Completion := { c with openStreams := c.openStreams + 1 }

/-- Closes a stream, and tells whether the end is to be announced. -/
def close (c : Completion) : Bool × Completion :=
  (c.openStreams == 1 && !c.stopped, { c with openStreams := c.openStreams - 1 })

/-- Hands on a row, and remembers a refusal. After one, nothing is handed on. -/
def forward (c : Completion) (row : Solution) : Emission (Bool × Completion) :=
  if c.stopped then return (false, c)
  else do
    let more ← Emission.push row
    return (more, { c with stopped := !more })

/-- Closes a stream, and announces the end if this was the last one. -/
def finish (c : Completion) : Emission Completion :=
  match c.close with
  | (true, c) => do
    Emission.finished
    return c
  | (false, c) => return c

/-- Merges streams: hands on all of their rows, and one end behind the last. -/
def pipe : Pipe Completion where
  onRow := forward
  onFinish := finish
  onFail c error := do
    Emission.report error
    return c

end Completion

end SolutionFlow
