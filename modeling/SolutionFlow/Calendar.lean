/-!
The calendar: leap years, the lengths of months, and the date of a day that is told by its number.
-/

namespace SolutionFlow.Calendar

def isLeapYear (year : Nat) : Bool :=
  year % 4 == 0 && (year % 100 != 0 || year % 400 == 0)

def daysOfMonth (year month : Nat) : Nat :=
  if month = 2 then if isLeapYear year then 29 else 28
  else if [4, 6, 9, 11].contains month then 30
  else 31

/-- A day of the calendar. -/
structure Date where
  year : Nat
  month : Nat
  day : Nat
deriving DecidableEq

/-- How many days there are in 400 years, after which leap years repeat. -/
def daysOfCycle : Nat := 146097

/-- How many days there are from the first of March of the year 0 to the first day of 1970. -/
def daysTo1970 : Nat := 719468

namespace Date

/-- The date of the day with the given number, counted from the first day of 1970. Years are taken
to start in March, so that a leap day is the last day of its year. -/
def ofDays (days : Nat) : Date :=
  let days := days + daysTo1970
  let ofCycle := days % daysOfCycle
  let yearOfCycle := (ofCycle - ofCycle / 1460 + ofCycle / 36524 - ofCycle / 146096) / 365
  let ofYear := ofCycle - (365 * yearOfCycle + yearOfCycle / 4 - yearOfCycle / 100)
  let month := (5 * ofYear + 2) / 153
  let year := yearOfCycle + days / daysOfCycle * 400
  let day := ofYear - (153 * month + 2) / 5 + 1
  if month < 10 then ⟨year, month + 3, day⟩ else ⟨year + 1, month - 9, day⟩

end Date

end SolutionFlow.Calendar
