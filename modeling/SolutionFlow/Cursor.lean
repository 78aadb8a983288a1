import SolutionFlow.Bridge.Playing
import SolutionFlow.Deadline
import SolutionFlow.Flow.Process

/-!
Cursors: queries that are read row by row.

A cursor lets the jobs of its query make their steps, the earliest first, only when nothing waits in
the queue. Time is counted by the steps of the jobs, by how long their calls take, and by how long
the nested queries of their rows take. Jobs work side by side: the time that one of them spends
passes for the reader only if it waits for what this job hands over.
-/

namespace SolutionFlow

/-- A query, the bridge that it pushes its rows to, and the time. -/
structure Cursor where
  clock : Clock
  deadline : Deadline
  bridge : Bridge
  activity : Playing Process

namespace Cursor

/-- Plays an emission that begins at the given time. -/
def play (c : Cursor) (time : Nat) (emission : Emission Process) : Cursor :=
  let (activity, bridge, clock) := c.bridge.play { c.clock with time := time } emission
  let reached := if bridge.queue.isEmpty then time else clock.time
  { c with
    clock := { clock with time := max c.clock.time reached }
    activity := activity
    bridge := bridge }

/-- Waits until the given time, if it is still to come. -/
def waitUntil (c : Cursor) (time : Nat) : Cursor :=
  { c with clock := { c.clock with time := max c.clock.time time } }

/-- How the time limit has been passed, if it has been. -/
def overrun? (c : Cursor) : Option Overrun := c.deadline.overrun? c.clock.time

/-- Lets what can move move: an emission that waits for room, or else the earliest job. A job that
could go on only after the time limit stays where it is. There is no result if nothing is left. -/
def advance (env : Environment) (c : Cursor) : Option Cursor :=
  match c.activity with
  | .blocked rest => some (c.play c.clock.time rest)
  | .ended process =>
    match process.earliest with
    | none => c.deadline.passed?.map c.waitUntil
    | some appointment =>
      let waited := c.waitUntil appointment.time
      if waited.overrun?.isSome then some waited
      else some (c.play appointment.time (process.deliver env appointment.path))

/-- One look at the bridge, after letting the query move if nothing waits there. -/
def look (env : Environment) (c : Cursor) : Option (Bridge.Outcome × Cursor) :=
  match c.bridge.dequeue with
  | (some d, bridge) =>
    let (outcome, bridge) := bridge.settle (some d) c.overrun?
    some (outcome, { c with bridge := bridge })
  | (none, _) =>
    (c.advance env).map fun c =>
      let (outcome, bridge) := c.bridge.settle none c.overrun?
      (outcome, { c with bridge := bridge })

/-- The next row or the failure that ends the query; nothing after its end. A query that says
nothing for as many looks as `patience` is taken for silent. -/
def next (env : Environment) : Nat → Cursor → Option Item × Cursor
  | 0, c => (none, c)
  | patience + 1, c =>
    if c.bridge.finished then (none, c)
    else
      match c.look env with
      | none => (none, c)
      | some (.row row, c) => (some (.ok row), c)
      | some (.failed error, c) => (some (.error error), c)
      | some (.ended, c) => (none, c)
      | some (.again, c) => next env patience c

/-- Adds all further items to those in `found`, which are in reverse order. -/
def collect (env : Environment) (patience : Nat) :
    Nat → Cursor → List Item → List Item × Cursor
  | 0, c, found => (found.reverse, c)
  | count + 1, c, found =>
    match c.next env patience with
    | (none, c) => (found.reverse, c)
    | (some item, c) => collect env patience count c (item :: found)

/-- All further items, but no more than `patience`. -/
def rest (env : Environment) (patience : Nat) (c : Cursor) : List Item × Cursor :=
  c.collect env patience patience []

/-- Ends the query; what waits is dropped. -/
def close (c : Cursor) : Cursor := { c with bridge := c.bridge.close }

/-- Whether the query has ended, for the one who reads it. -/
def isClosed (c : Cursor) : Bool := c.bridge.finished

end Cursor

end SolutionFlow
