import SolutionFlow.Error.Query

/-!
The time limit of a query. It counts from the start of the query, and a limit of zero is none.
Calling a query off is not a failure: it is told by a mark of its own.
-/

namespace SolutionFlow

/-- When a query started, in nanoseconds, how long it may take, and whether it was called off. -/
structure Deadline where
  started : Nat
  budget : Option Duration
  cancelled : Bool

namespace Deadline

def starting (started : Nat) (budget : Option Duration) : Deadline :=
  ⟨started, budget.filter fun d => decide (d.nanoseconds ≠ 0), false⟩

/-- A query without a time limit. -/
def unlimited (started : Nat) : Deadline := starting started none

def elapsed (d : Deadline) (now : Nat) : Duration := ⟨now - d.started⟩

/-- How the limit has been passed, if it has been. -/
def overrun? (d : Deadline) (now : Nat) : Option Overrun :=
  match d.budget with
  | none => none
  | some budget =>
    if budget.nanoseconds < (d.elapsed now).nanoseconds then some ⟨budget, d.elapsed now⟩ else none

/-- The time that is left; there is no such time without a limit. -/
def remaining (d : Deadline) (now : Nat) : Option Duration :=
  d.budget.map fun budget => ⟨budget.nanoseconds - (d.elapsed now).nanoseconds⟩

/-- The first time at which the limit has been passed. -/
def passed? (d : Deadline) : Option Nat :=
  d.budget.map fun budget => d.started + budget.nanoseconds + 1

def cancel (d : Deadline) : Deadline := { d with cancelled := true }

end Deadline

end SolutionFlow
