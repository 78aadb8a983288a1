import SolutionFlow.Algebra.Plan

/-!
Where in a query a plan stands: whether it is nested in an expression, and which solution modifiers
enclose it without another operator in between. From these follow how many rows a sort has to keep
and whether it may drop repeated rows.
-/

namespace SolutionFlow

/-- The greatest row number; a limit of this size is no limit. -/
def maxCount : Nat := UInt64.size - 1

/-- A sum of row numbers that stays at the greatest one. -/
def addCapped (a b : Nat) : Nat := min (a + b) maxCount

/-- A solution modifier around a plan. -/
inductive Modifier where
  | distinct
  | reduced
  | slice (offset limit : Option UInt64)
deriving DecidableEq

/-- The place of a plan: its modifiers, the nearest first, and whether it is in a nested query. -/
structure Scope where
  modifiers : List Modifier
  nested : Bool

namespace Scope

/-- The place of a whole query. -/
def root : Scope := ⟨[], false⟩

/-- The place of a plan nested in an expression. -/
def subquery : Scope := ⟨[], true⟩

/-- The place of the argument of a solution modifier. -/
def enter (s : Scope) (m : Modifier) : Scope := { s with modifiers := m :: s.modifiers }

/-- The place of an argument of any other operator. -/
def descend (s : Scope) : Scope := { s with modifiers := [] }

/-- How many rows the given modifiers can use of a sorted argument. -/
def limitOf : List Modifier → Nat
  | [] => maxCount
  | .slice (some offset) (some limit) :: _ => addCapped offset.toNat limit.toNat
  | .slice none (some limit) :: _ => limit.toNat
  | .slice (some offset) none :: outer =>
    let limit := limitOf outer
    if 0 < offset.toNat ∧ limit < maxCount then addCapped offset.toNat limit else limit
  | .slice none none :: outer => limitOf outer
  | .distinct :: outer => limitOf outer
  | .reduced :: outer => limitOf outer

/-- How many rows a sort in this place has to keep. -/
def sortLimit (s : Scope) : Nat := limitOf s.modifiers

/-- Whether a sort in this place drops rows that it has seen before. -/
def sortDistinct (s : Scope) : Bool :=
  s.modifiers.any fun
    | .slice _ _ => false
    | .distinct | .reduced => true

end Scope

end SolutionFlow
