import SolutionFlow.Bridge.Basic

/-!
Emissions that are played to a bridge. A producer that finds the queue full waits, and with it all
that is left of its emission.
-/

namespace SolutionFlow

/-- How far an emission has come: it has ended, or its rest waits for room in the queue. -/
inductive Playing (α : Type) where
  | ended (value : α)
  | blocked (rest : Emission α)

namespace Bridge

variable {α : Type}

/-- Plays an emission to a bridge as far as there is room, on a clock. A closed bridge refuses
everything. -/
def play (b : Bridge) (clock : Clock) : Emission α → Playing α × Bridge × Clock
  | .done value => (.ended value, b, clock)
  | .emit row next =>
    if b.isClosed then play b clock (next false)
    else if b.hasRoom then play (b.enqueue (.row row)) clock (next true)
    else (.blocked (.emit row next), b, clock)
  | .finish next =>
    if b.isClosed then play b clock next
    else if b.hasRoom then play (b.enqueue .finish) clock next
    else (.blocked (.finish next), b, clock)
  | .fail error next => play (b.fail error) clock next
  | .probe next => play b clock (next b.isClosed)
  | .consult next => play b clock (next clock)
  | .adjust clock next => play b clock next

end Bridge

end SolutionFlow
