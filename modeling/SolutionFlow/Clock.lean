/-!
The clock of a run. It tells the time, and it holds the time of the query: the time at which the
query has asked for it first, which is then kept until a query begins anew.
-/

namespace SolutionFlow

/-- The time, in nanoseconds, and the time of the query, if one has been taken. -/
structure Clock where
  time : Nat
  queryTime : Option Nat
deriving DecidableEq

/-- What is done in time: it may ask the clock and leaves the clock behind. -/
abbrev Timed := StateM Clock

namespace Clock

/-- A clock at the given time, before any query has asked. -/
def starting (time : Nat) : Clock := ⟨time, none⟩

/-- A query begins anew: the next one who asks for its time gets a new one. -/
def restart (clock : Clock) : Clock := { clock with queryTime := none }

/-- The time of the query. The first one who asks takes the present time for it. -/
def readQueryTime : Timed Nat := fun clock =>
  match clock.queryTime with
  | some time => (time, clock)
  | none => (clock.time, { clock with queryTime := some clock.time })

end Clock

end SolutionFlow
