import SolutionFlow.Calendar
import SolutionFlow.Number.Reading
import SolutionFlow.Settings.Document.Fault
import SolutionFlow.Settings.Document.Reader

/-!
Dates and times of day. They are checked against the calendar and the clock; a minute may have a
leap second.
-/

namespace SolutionFlow.Document

open Reader

/-- A number of two digits between two bounds. -/
def twoDigits (low high : Nat) : Reader Nat :=
  judged (several 2 Char.isDigit) fun digits =>
    let n := Decimal.ofDigits digits
    if low ≤ n ∧ n ≤ high then pure n else refuse (some .outOfRange)

def date : Reader Unit := do
  let year ← Decimal.ofDigits <$> several 4 Char.isDigit
  exactly ['-']
  let month ← commit (twoDigits 1 12)
  commit (expecting [mark "-"] (exactly ['-']))
  commit <| judged (twoDigits 1 31) fun day =>
    if day ≤ Calendar.daysOfMonth year month then pure () else refuse (some .outOfRange)

def time : Reader Unit := do
  let _ ← twoDigits 0 23
  exactly [':']
  commit do
    let _ ← twoDigits 0 59
    exactly [':']
    let _ ← twoDigits 0 60
    let _ ← attempt (do exactly ['.']; someOf Char.isDigit)

/-- The distance of a time of day from that of the prime meridian. -/
def offset : Reader Unit := named "time offset" <|
  either (discard (satisfying fun c => c == 'Z' || c == 'z')) do
    let _ ← satisfying fun c => c == '+' || c == '-'
    commit do
      let _ ← twoDigits 0 23
      exactly [':']
      let _ ← twoDigits 0 59

/-- The text of a date, of a date with a time of day, or of a time of day. -/
def moment : Reader (List Char) :=
  taken <| either
    (named "date-time" do
      date
      let _ ← attempt do
        let _ ← satisfying fun c => c == 'T' || c == 't' || c == ' '
        time
        attempt offset)
    (named "time" time)

end SolutionFlow.Document
