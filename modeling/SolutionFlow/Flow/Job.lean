import SolutionFlow.Flow.Emission
import SolutionFlow.Flow.Environment

/-!
Jobs: the leaves of a running query. A job makes one call and hands over what comes of it, item by
item, until the sequence ends, its consumer refuses a row, or its consumer is gone.
-/

namespace SolutionFlow

/-- How far a job has come. -/
inductive JobState where
  | waiting (call : Environment → Timed Call)
  | called (result : CallResult)
  | ended

/-- A job of the given kind, and the time from which it can go on. -/
structure Job where
  kind : String
  readyAt : Nat
  state : JobState

namespace Job

/-- How long each step of a job takes, in nanoseconds. -/
def pace : Nat := 10000

/-- The job after a step that is over now, with what it has to do when some time has passed. -/
def next (job : Job) (delay : Duration) (state : JobState) : Emission Job := do
  let time ← Emission.time
  return { job with readyAt := time + pace + delay.nanoseconds, state := state }

/-- The job when nothing is left to do. -/
def stop (job : Job) : Job := { job with state := .ended }

def isEnded (job : Job) : Bool :=
  match job.state with
  | .ended => true
  | _ => false

/-- Ends a job with a failure. -/
def failWith (job : Job) (error : QueryError) : Emission Job := do
  Emission.reportIfHeard error
  return job.stop

/-- Hands over the next item, or the end of the stream after the last one. -/
def handOver (job : Job) (items : Iteration) : Emission Job :=
  match items.take with
  | (none, _) => do
    Emission.finished
    return job.stop
  | (some (.ok row), rest) => do
    if ← Emission.push row then job.next ⟨0⟩ (.called (.opened rest))
    else return job.stop
  | (some (.error error), _) => job.failWith error

/-- The next step of a job. -/
def step (job : Job) (env : Environment) : Emission Job :=
  match job.state with
  | .ended => return job
  | .waiting call => do
    if ← Emission.isGone then return job.stop
    else
      let made ← Emission.timed (call env)
      job.next made.delay (.called made.result)
  | .called (.failed error) => job.failWith error
  | .called (.panicked reason) => job.failWith (.panicked job.kind reason)
  | .called (.opened items) => do
    if ← Emission.isGone then return job.stop else job.handOver items

end Job

end SolutionFlow
