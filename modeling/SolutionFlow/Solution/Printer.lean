import SolutionFlow.Solution.Basic
import SolutionFlow.Term.Printer

/-!
The two ways to show a solution: a short one between brackets, and a table of quoted names and
values between braces.
-/

namespace SolutionFlow.Solution

/-- Each name with its term, between brackets. -/
def display (s : Solution) : String :=
  "[" ++ String.intercalate ";" (s.entries.map fun e => e.1 ++ "=" ++ e.2.display) ++ "]"

/-- Each name behind its mark and each term, both in quotes, between braces. -/
def displayTable (s : Solution) : String :=
  let entry (e : String × Term) := Text.quoted ("?" ++ e.1) ++ ": " ++ Text.quoted e.2.display
  "\x7b" ++ String.intercalate ", " (s.entries.map entry) ++ "\x7d"

end SolutionFlow.Solution
