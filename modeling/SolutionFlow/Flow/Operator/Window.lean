import SolutionFlow.Flow.Emission
import SolutionFlow.Flow.Scope

/-!
Windows: the rows of a stream from one number to another, as a slice lets them through.
-/

namespace SolutionFlow

/-- A window on a stream: how many rows come before it, the number of its last row, how many rows
have come so far, and whether it has ended its own stream or was refused a row. -/
structure Window where
  offset : Nat
  last : Nat
  count : Nat
  closed : Bool
deriving DecidableEq

namespace Window

/-- The window of a slice. Without a limit it has no last row that could be reached. -/
def ofSlice (offset limit : Option UInt64) : Window :=
  let skipped := (offset.getD 0).toNat
  let last :=
    match limit with
    | some n => addCapped skipped n.toNat
    | none => maxCount
  ⟨skipped, last, 0, false⟩

/-- The number of the next row. After the greatest number they begin anew. -/
def nextNumber (w : Window) : Nat := (w.count + 1) % UInt64.size

/-- Counts a row, and hands it on if its number is in the window. With the last row goes the end of
the stream. -/
def onRow (w : Window) (row : Solution) : Emission (Bool × Window) :=
  if w.closed then return (false, w)
  else
    let w := { w with count := w.nextNumber }
    if w.count ≤ w.offset then return (true, w)
    else if w.count < w.last then do
      let more ← Emission.push row
      return (more, { w with closed := !more })
    else if w.count = w.last then do
      if ← Emission.push row then Emission.finished
      return (false, { w with closed := true })
    else return (false, w)

/-- Hands on the end of the stream, unless the window has ended it already. -/
def onFinish (w : Window) : Emission Window :=
  if w.closed then return w
  else do
    Emission.finished
    return { w with closed := true }

def pipe : Pipe Window where
  onRow := onRow
  onFinish := onFinish
  onFail w error := do
    Emission.report error
    return w

end Window

end SolutionFlow
