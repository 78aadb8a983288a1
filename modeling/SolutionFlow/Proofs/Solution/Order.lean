import SolutionFlow.Proofs.Number.Value
import SolutionFlow.Proofs.Term.Order
import SolutionFlow.Solution.Order

/-! Linear orders. Terms and solutions are in linear orders in which only equal ones have one place, and among
the terms an integer and a double are ordered by their exact values. -/
namespace SolutionFlow

/-- Under this comparison things are in a linear order, and only equal things are in one place. -/
structure Linear {α : Type} (cmp : α → α → Ordering) : Prop where
  swap : ∀ a b, (cmp a b).swap = cmp b a
  antisymm : ∀ {a b}, (cmp a b).isLE = true → (cmp b a).isLE = true → a = b
  trans : ∀ {a b c}, (cmp a b).isLE = true → (cmp b c).isLE = true → (cmp a c).isLE = true
  total : ∀ a b, (cmp a b).isLE = true ∨ (cmp b a).isLE = true
  eq_iff : ∀ a b, cmp a b = .eq ↔ a = b

theorem linear_of_lawful {α : Type} (cmp : α → α → Ordering) [Std.TransCmp cmp] [Std.LawfulEqCmp cmp] :
    Linear cmp where
  swap _ _ := Std.OrientedCmp.eq_swap.symm
  antisymm hAB hBA := Std.LawfulEqCmp.eq_of_compare (Std.OrientedCmp.isLE_antisymm hAB hBA)
  trans := Std.TransCmp.isLE_trans
  total a b := by
    have hTurned : cmp b a = (cmp a b).swap := Std.OrientedCmp.eq_swap
    rw [hTurned]
    cases cmp a b <;> simp
  eq_iff _ _ := Std.LawfulEqCmp.compare_eq_iff_eq

namespace Solution

/-- The order of two entries: that of the names and then that of the values. -/
abbrev cmpEntry : String × Term → String × Term → Ordering :=
  compareLex (compareOn Prod.fst) (compareOn Prod.snd)

/-- Entries are compared one by one. -/
theorem cmpEntries_eq (as bs : List (String × Term)) :
    cmpEntries as bs = List.compareLex cmpEntry as bs := by
  induction as generalizing bs with
  | nil => cases bs <;> rfl
  | cons a as ih =>
      cases bs with
      | nil => rfl
      | cons b bs =>
          rw [cmpEntries, List.compareLex, ih, ← Ordering.then_assoc]
          change (cmpEntry a b).then _ = _
          cases cmpEntry a b <;> rfl

instance : Std.LawfulEqCmp cmpEntry where
  eq_of_compare h := by
    obtain ⟨hName, hValue⟩ := compareLex_eq_eq.mp h
    exact Prod.ext (Std.LawfulEqCmp.eq_of_compare hName) (Std.LawfulEqCmp.eq_of_compare hValue)

theorem cmp_eq : cmp = fun a b : Solution => List.compareLex cmpEntry a.entries b.entries := by
  funext a b
  exact cmpEntries_eq _ _

instance : Std.TransCmp Solution.cmp := by
  rw [cmp_eq]
  exact { eq_swap := Std.OrientedCmp.eq_swap, isLE_trans := Std.TransCmp.isLE_trans }

instance : Std.LawfulEqCmp Solution.cmp where
  eq_of_compare {a b} h := by
    rw [cmp_eq] at h
    have hEntries : a.entries = b.entries := Std.LawfulEqCmp.eq_of_compare h
    cases a
    cases b
    cases hEntries
    rfl

end Solution

namespace Term

/-- An integer is put before a double if its exact value is not greater, and else behind it. -/
theorem cmp_integer_double (i : Int64) {d : Double} (h : d.isFinite = true) :
    cmp (.integer i) (.double d) = (compare (i.toInt : ℚ) d.value).then .lt := by
  rw [Double.compare_int_value]
  change (compare 2 2).then ((Double.compareWhole i d).then .lt) = _
  rw [Double.compareWhole_eq, Double.side, Double.finiteUnits, if_pos h, if_pos h]
  rfl

/-- The order of terms and the order of solutions are linear, and only equal ones are in one place. An
integer and a finite double are ordered by their exact values, and only if these are the same, the
integer goes first. -/
theorem cmp_linear_exact :
    Linear Term.cmp ∧ Linear Solution.cmp ∧
      ∀ (i : Int64) (d : Double), d.isFinite = true →
        cmp (.integer i) (.double d) = (compare (i.toInt : ℚ) d.value).then .lt ∧
        cmp (.double d) (.integer i) = (compare d.value (i.toInt : ℚ)).then .gt := by
  have hLinear := linear_of_lawful Term.cmp
  refine ⟨hLinear, linear_of_lawful Solution.cmp, fun i d hFinite => ?_⟩
  have hExact := cmp_integer_double i hFinite
  refine ⟨hExact, ?_⟩
  rw [← hLinear.swap, hExact, Ordering.swap_then, ← Std.OrientedOrd.eq_swap]
  rfl

/-- The integer behind 2^53 is above the double 2^53, to which it would be rounded. -/
example : cmp (.integer 9007199254740993) (.double ⟨0x4340000000000000⟩) = .gt := by decide +kernel

end Term

end SolutionFlow
