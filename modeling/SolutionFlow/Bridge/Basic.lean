import SolutionFlow.Flow.Emission

/-!
Bridges: where the rows that a query pushes are kept until they are asked for.

A bridge holds a queue of limited length, the first failure with those after it, and a mark that
tells producers to stop. Each operation here is one indivisible action of a producer or of the
consumer; what a producer or a consumer does is composed of them.
-/

namespace SolutionFlow

/-- What waits in the queue: a row, the end of the stream, or a call to look for a failure. -/
inductive Delivery where
  | row (row : Solution)
  | finish
  | wake

/-- A bridge. `cancelled` stops its own producers, and `outerClosed` tells that the query around
this one has been stopped. -/
structure Bridge where
  capacity : Nat
  queue : List Delivery
  cancelled : Bool
  outerClosed : Bool
  first : Option QueryError
  later : List QueryError
  finished : Bool

namespace Bridge

/-- A bridge with room for `capacity` deliveries, but at least for one. -/
def new (capacity : Nat) : Bridge := ⟨max 1 capacity, [], false, false, none, [], false⟩

/-- The bridge of a query within another one, which may have been stopped before. -/
def within (capacity : Nat) (stopped : Bool) : Bridge :=
  { new capacity with outerClosed := stopped }

/-- Whether producers are told to stop. -/
def isClosed (b : Bridge) : Bool := b.cancelled || b.outerClosed

def hasRoom (b : Bridge) : Bool := decide (b.queue.length < b.capacity)

def enqueue (b : Bridge) (d : Delivery) : Bridge := { b with queue := b.queue ++ [d] }

/-- Keeps a failure: as the first one, or behind it. -/
def note (b : Bridge) (error : QueryError) : Bridge :=
  match b.first with
  | none => { b with first := some error }
  | some _ => { b with later := b.later ++ [error] }

def cancel (b : Bridge) : Bridge := { b with cancelled := true }

/-- Calls the consumer to look for a failure, if there is room in the queue. -/
def wake (b : Bridge) : Bridge := if b.hasRoom then b.enqueue .wake else b

/-- Reports a failure. -/
def fail (b : Bridge) (error : QueryError) : Bridge := ((b.note error).cancel).wake

/-- Takes the next delivery, if one waits. -/
def dequeue (b : Bridge) : Option Delivery × Bridge :=
  match b.queue with
  | [] => (none, b)
  | d :: rest => (some d, { b with queue := rest })

/-- Takes the failures out, the later ones behind the first. -/
def takeError (b : Bridge) : Option QueryError × Bridge :=
  match b.first with
  | none => (none, b)
  | some error => (some (error.withSuppressed b.later), { b with first := none, later := [] })

/-- Stops the producers and drops what waits. -/
def close (b : Bridge) : Bridge := { b with finished := true, cancelled := true, queue := [] }

/-- What the consumer learns from one look at the bridge. -/
inductive Outcome where
  | row (row : Solution)
  | failed (error : QueryError)
  | ended
  | again

/-- Draws the conclusion from a delivery, or from having waited in vain. A failure comes before the
time limit, and both come before the delivery. -/
def settle (b : Bridge) (received : Option Delivery) (overrun : Option Overrun) :
    Outcome × Bridge :=
  match b.takeError, overrun with
  | (some error, b), _ => (.failed error, b.close)
  | (none, b), some o => (.failed (.timeout o), b.close)
  | (none, b), none =>
    match received with
    | some (.row row) => (.row row, b)
    | some .finish => (.ended, b.close)
    | some .wake | none => (.again, b)

end Bridge

end SolutionFlow
