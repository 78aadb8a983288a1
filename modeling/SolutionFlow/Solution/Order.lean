import SolutionFlow.Solution.Basic

/-!
The order of solutions: that of their entries, in the order of the names, from left to right.
-/

namespace SolutionFlow.Solution

/-- The lexicographic order of two lists of entries; a proper beginning goes first. -/
def cmpEntries : List (String × Term) → List (String × Term) → Ordering
  | [], [] => .eq
  | [], _ :: _ => .lt
  | _ :: _, [] => .gt
  | a :: as, b :: bs =>
    (compare a.1 b.1).then ((a.2.cmp b.2).then (cmpEntries as bs))

/-- The order of solutions. -/
def cmp (a b : Solution) : Ordering := cmpEntries a.entries b.entries

instance : Ord Solution := ⟨cmp⟩

/-- The given solutions in order; equal ones keep their places. -/
def sortAll (rows : List Solution) : List Solution :=
  rows.mergeSort fun a b => (a.cmp b).isLE

end SolutionFlow.Solution
