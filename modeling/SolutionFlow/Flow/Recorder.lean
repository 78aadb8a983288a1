import SolutionFlow.Flow.Emission

/-!
Recorders: consumers that write down what they receive. They accept all rows up to a given number,
and are gone after another one.
-/

namespace SolutionFlow

/-- What has been received so far, the last things first, and when to refuse rows or to be gone. -/
structure Recorder where
  rows : List Solution
  ends : Nat
  errors : List QueryError
  refuseAfter : Option Nat
  goneAfter : Option Nat

namespace Recorder

def new (refuseAfter goneAfter : Option Nat) : Recorder := ⟨[], 0, [], refuseAfter, goneAfter⟩

/-- Whether as many rows as the limit says have come. -/
def reached (r : Recorder) (limit : Option Nat) : Bool :=
  limit.any fun n => decide (n ≤ r.rows.length)

/-- Writes everything down. The row that reaches the limit is the first to be refused. -/
def consumer : Consumer Recorder where
  row r row :=
    let r := { r with rows := row :: r.rows }
    (!r.reached r.refuseAfter, r)
  finish r := { r with ends := r.ends + 1 }
  fail r error := { r with errors := error :: r.errors }
  gone r := r.reached r.goneAfter

end Recorder

end SolutionFlow
