import SolutionFlow.Error.Query
import SolutionFlow.Solution.Basic

/-!
What the evaluation gets from those it calls: a sequence of solutions that is read item by item and
may fail on the way, or no sequence at all.
-/

namespace SolutionFlow

/-- The next solution of a sequence, or the failure that stands in its place. -/
abbrev Item := Except QueryError Solution

/-- A sequence that is read item by item: a given list, or a solution for every number from `next`
on, without end. -/
inductive Iteration where
  | items (rest : List Item)
  | endless (row : Nat → Solution) (next : Nat)

namespace Iteration

def ofRows (rows : List Solution) : Iteration := .items (rows.map .ok)

/-- Takes the next item; there is none at the end. -/
def take : Iteration → Option Item × Iteration
  | .items [] => (none, .items [])
  | .items (item :: rest) => (some item, .items rest)
  | .endless row next => (some (.ok (row next)), .endless row (next + 1))

/-- A closed sequence has no items left. -/
def close (_ : Iteration) : Iteration := .items []

end Iteration

/-- How a call for a sequence ends. -/
inductive CallResult where
  | failed (error : QueryError)
  | panicked (reason : String)
  | opened (items : Iteration)

/-- What a call gives, and how long it takes. -/
structure Call where
  result : CallResult
  delay : Duration

namespace Call

/-- A call that takes no time. -/
def immediate (result : CallResult) : Call := ⟨result, ⟨0⟩⟩

def ofExcept : Except QueryError Iteration → Call
  | .ok items => immediate (.opened items)
  | .error error => immediate (.failed error)

def ofRows (rows : List Solution) : Call := immediate (.opened (.ofRows rows))

end Call

end SolutionFlow
