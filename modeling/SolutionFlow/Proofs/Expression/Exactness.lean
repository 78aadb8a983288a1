import SolutionFlow.Flow.Operator.Sorting
import SolutionFlow.Proofs.Expression.Coherence
import SolutionFlow.Proofs.Number.Value

/-! How exact the comparisons of numbers are. Numbers are rounded to doubles before they are compared, the
integers too. Rounding keeps their order, but it can bring different numbers together; then they count as
equal. That needs an integer beyond 2^53, and sorting, which is exact, only tells more numbers apart. -/
namespace SolutionFlow

namespace Term

/-- The exact value of an integer or a finite double. -/
def number? : Term → Option ℚ
  | .integer i => some i.toInt
  | .double d => if d.isFinite then some d.value else none
  | _ => none

/-- An integer that need not be a double. -/
def Wide (l : Term) : Prop := ∃ i, l = .integer i ∧ 2 ^ 53 < i.toInt.natAbs

/-- Different numbers that are rounded to one double. -/
def Merged (l r : Term) : Prop := l.number? ≠ r.number? ∧ l.doublePlace = r.doublePlace

variable {l r : Term} {u v : ℚ}

theorem number?_double {d : Double} :
    (Term.double d).number? = some u ↔ d.isFinite = true ∧ d.value = u := by
  cases hFinite : d.isFinite <;> simp [number?, hFinite]

theorem scale?_of_number? (h : l.number? = some u) : l.scale? = some .number := by
  cases l with
  | integer i => rfl
  | double d => simp [scale?, Double.isNaN_of_isFinite (number?_double.mp h).1]
  | _ => cases h

/-- A number is its units, and it is rounded to the double nearest to them. -/
theorem units_of_number? (h : l.number? = some u) :
    u = l.units / Double.unitsPerOne ∧ l.doublePlace = Double.nearestPlace l.units := by
  cases l with
  | integer i =>
      obtain rfl := Option.some.inj h
      have hUnits : (Term.integer i).units = i.toInt * Double.unitsPerOne := rfl
      have hPlace : (Term.integer i).doublePlace = (Double.ofInt i.toInt).place := rfl
      rw [hUnits, hPlace, Double.place_ofInt, Int.cast_mul, Int.cast_natCast,
        mul_div_cancel_right₀ _ Double.cast_unitsPerOne_pos.ne']
      exact ⟨rfl, rfl⟩
  | double d =>
      obtain ⟨hFinite, rfl⟩ := number?_double.mp h
      rw [units, Double.finiteUnits, if_pos hFinite]
      exact ⟨Double.value_eq d, (Double.nearestPlace_units hFinite).symm⟩
  | _ => cases h

/-- Only integers beyond 2^53 are changed by rounding. -/
theorem exists_toDouble?_of_not_wide (h : l.number? = some u) (hNarrow : ¬l.Wide) :
    ∃ d, l.toDouble? = some d ∧ d.units = l.units := by
  cases l with
  | integer i =>
      have hLe : i.toInt.natAbs ≤ 2 ^ 53 := not_lt.mp fun hFar => hNarrow ⟨i, rfl, hFar⟩
      exact ⟨_, rfl, (Double.units_ofInt hLe).2⟩
  | double d => exact ⟨d, rfl, (if_pos (number?_double.mp h).1).symm⟩
  | _ => cases h

theorem compare_numbers (hL : l.number? = some u) (hR : r.number? = some v) :
    compare u v = compare l.units r.units := by
  rw [(units_of_number? hL).1, (units_of_number? hR).1]
  exact compare_of_strictMono (fun _ _ => Double.div_unitsPerOne_lt) _ _

/-- Numbers that are rounded to different doubles are in the order of these. -/
theorem compare_doublePlace (hL : l.number? = some u) (hR : r.number? = some v)
    (h : l.doublePlace ≠ r.doublePlace) : compare l.doublePlace r.doublePlace = compare u v := by
  rw [compare_numbers hL hR]
  rw [(units_of_number? hL).2, (units_of_number? hR).2] at h ⊢
  exact compare_of_monotone (fun _ _ => Double.nearestPlace_le) h

/-- One of two numbers that are merged is an integer beyond 2^53. -/
theorem Merged.wide (hL : l.number? = some u) (hR : r.number? = some v) (h : l.Merged r) :
    l.Wide ∨ r.Wide := by
  by_contra hNot
  obtain ⟨hNarrowL, hNarrowR⟩ := not_or.mp hNot
  obtain ⟨a, hA, hUnitsA⟩ := exists_toDouble?_of_not_wide hL hNarrowL
  obtain ⟨b, hB, hUnitsB⟩ := exists_toDouble?_of_not_wide hR hNarrowR
  have hPlace : a.place = b.place := by simpa [doublePlace, hA, hB] using h.2
  have hUnits : l.units = r.units := by rw [← hUnitsA, ← hUnitsB, Double.units_eq_of_place hPlace]
  refine h.1 ?_
  rw [hL, hR, (units_of_number? hL).1, (units_of_number? hR).1, hUnits]

theorem kindRank_of_number (h : l.scale? = some .number) : l.kindRank = 2 := by
  cases l <;> simp [scale?] at h <;> rfl

/-- Where a number lies and where it is rounded to. -/
theorem doublePlace_cases (h : l.scale? = some .number) :
    l.side = 0 ∧ l.doublePlace = -Double.infinityMagnitude ∨
      l.side = 1 ∧ l.doublePlace = Double.nearestPlace l.units ∨
      l.side = 2 ∧ l.doublePlace = Double.infinityMagnitude := by
  cases l with
  | integer i => exact .inr (.inl ⟨rfl, (units_of_number? (l := .integer i) rfl).2⟩)
  | double d =>
      obtain ⟨a, hA, hNumber⟩ := scale?_number.mp h
      obtain rfl : d = a := Option.some.inj hA
      cases hFinite : d.isFinite with
      | true =>
          refine .inr (.inl ⟨(Double.side_eq_one_iff d).mpr hFinite, ?_⟩)
          exact (units_of_number? (number?_double.mpr ⟨hFinite, rfl⟩)).2
      | false =>
          have hInfinite : d.magnitude = Double.infinityMagnitude := by
            simp only [Double.isNaN, Double.isFinite, decide_eq_false_iff_not] at hNumber hFinite
            omega
          cases hSign : d.isNegative <;>
            simp [side, Double.side, hFinite, hSign, doublePlace, toDouble?, Double.place, hInfinite]
  | _ => simp [scale?] at h

/-- What comparisons put before another term goes before it in the order of terms, which tells apart what
they merge. -/
theorem cmp_of_cmpOnScale (h : l.Comparable r) (hLess : cmpOnScale l r = .lt) : l.cmp r = .lt := by
  rw [cmp_eq_cmpParts]
  obtain ⟨scale, hL, hR⟩ := h
  cases scale
  case number =>
    have hKind : l.kindRank = r.kindRank := by
      rw [kindRank_of_number hL, kindRank_of_number hR]
    have hPlaces : l.doublePlace < r.doublePlace := by
      rwa [cmpOnScale_numbers hL hR, compare_lt_iff_lt] at hLess
    have hEarlier : l.side < r.side ∨ l.side = r.side ∧ l.units < r.units := by
      have hLow := Double.nearestPlace_bounds l.units
      have hHigh := Double.nearestPlace_bounds r.units
      have hMono := @Double.nearestPlace_le r.units l.units
      have hCasesL := doublePlace_cases hL
      have hCasesR := doublePlace_cases hR
      omega
    rcases hEarlier with hSide | ⟨hSide, hUnits⟩
    · simp [cmpParts, compareLex, compareOn, hKind, compare_lt_iff_lt.mpr hSide]
    · simp [cmpParts, compareLex, compareOn, hKind, hSide, compare_lt_iff_lt.mpr hUnits]
  all_goals
    cases l <;> simp [scale?] at hL
    cases r <;> simp [scale?] at hR
    simp [cmpOnScale, compareLex, compareOn, doublePlace, toDouble?, flag, form] at hLess
    simp [cmpParts, compareLex, compareOn, kindRank, side, units, numberRank, totalPlace, flag, form,
      hLess]

end Term

namespace Comparison

open Term

variable {l r : Term} {u v : ℚ}

theorem apply_numbers (op : Comparison) (hL : l.number? = some u) (hR : r.number? = some v) :
    op.apply l r = .ok (op.accepts (compare l.doublePlace r.doublePlace)) := by
  have hScaleL := scale?_of_number? hL
  have hScaleR := scale?_of_number? hR
  rw [apply_of_comparable op ⟨.number, hScaleL, hScaleR⟩, cmpOnScale_numbers hScaleL hScaleR]

theorem apply_of_not_merged (op : Comparison) (hL : l.number? = some u) (hR : r.number? = some v)
    (h : ¬l.Merged r) : op.apply l r = .ok (op.accepts (compare u v)) := by
  rw [apply_numbers op hL hR]
  by_cases hPlaces : l.doublePlace = r.doublePlace
  · have hSame : u = v := by
      by_contra hDiffer
      exact h ⟨by rw [hL, hR]; simpa using hDiffer, hPlaces⟩
    rw [hPlaces, hSame, compare_eq_iff_eq.mpr rfl, compare_eq_iff_eq.mpr rfl]
  · rw [compare_doublePlace hL hR hPlaces]

theorem apply_of_merged (op : Comparison) (hL : l.number? = some u) (hR : r.number? = some v)
    (h : l.Merged r) : op.apply l r = .ok (op.accepts .eq) := by
  rw [apply_numbers op hL hR, compare_eq_iff_eq.mpr h.2]

/-- Integers and finite doubles are compared by their exact values if and only if they are not merged; to be
merged takes an integer beyond 2^53, and then they count as equal. Sorting never goes against a
comparison: what is less goes first, wherever the rows come from. -/
theorem apply_exact_iff_not_merged (hL : l.number? = some u) (hR : r.number? = some v) :
    ((∀ op : Comparison, op.apply l r = .ok (op.accepts (compare u v))) ↔ ¬l.Merged r) ∧
      (l.Merged r → (l.Wide ∨ r.Wide) ∧ ∀ op : Comparison, op.apply l r = .ok (op.accepts .eq)) ∧
      ∀ (a b : Term) (m n : Nat) (x y : Solution), apply .lt a b = .ok true →
        SortKey.cmp ⟨[(.ascending, some a)], m, x⟩ ⟨[(.ascending, some b)], n, y⟩ = .lt := by
  refine ⟨⟨fun hExact hMerged => ?_, fun h op => apply_of_not_merged op hL hR h⟩, fun h =>
    ⟨h.wide hL hR, fun op => apply_of_merged op hL hR h⟩, fun a b m n x y hLess => ?_⟩
  · have hEqual := (hExact .eq).symm.trans (apply_of_merged .eq hL hR hMerged)
    have hSame : u = v := by simpa [accepts] using hEqual
    exact hMerged.1 (by rw [hL, hR, hSame])
  · obtain ⟨hSame, hCmp⟩ := lt_holds_iff.mp hLess
    simp [SortKey.cmp, SortKey.cmpValues, SortKey.cmpDirected, cmpOptional, cmp_of_cmpOnScale hSame hCmp]

theorem merged_neighbours : Merged (.integer 9007199254740993) (.integer 9007199254740992) := by
  refine ⟨fun hSame => ?_, by decide +kernel⟩
  simp [number?] at hSame

/-- The integer behind 2^53 is merged with 2^53; one and two are compared and sorted by their values. -/
theorem apply_exact_of_small :
    (∀ op : Comparison, op.apply (.integer 9007199254740993) (.integer 9007199254740992) =
      .ok (op.accepts .eq)) ∧
    (∀ op : Comparison, op.apply (.integer 1) (.integer 2) =
      .ok (op.accepts (compare ((1 : Int64).toInt : ℚ) (2 : Int64).toInt))) ∧
    SortKey.cmp ⟨[(.ascending, some (.integer 1))], 1, .empty⟩
      ⟨[(.ascending, some (.integer 2))], 0, .empty⟩ = .lt := by
  have hPlaces : (Term.integer 1).doublePlace ≠ (Term.integer 2).doublePlace := by decide +kernel
  have hLess : ((1 : Int64).toInt : ℚ) < (2 : Int64).toInt := Int.cast_lt.mpr (by decide)
  have hSmall := apply_exact_iff_not_merged (l := .integer 1) (r := .integer 2) rfl rfl
  have hExact := hSmall.1.mpr fun h => hPlaces h.2
  refine ⟨((apply_exact_iff_not_merged rfl rfl).2.1 merged_neighbours).2, hExact,
    hSmall.2.2 _ _ _ _ _ _ ?_⟩
  rw [hExact .lt, compare_lt_iff_lt.mpr hLess]
  rfl

/-- These two integers are different, but equal to the comparison. -/
theorem apply_eq_neighbours :
    (9007199254740993 : Int64) ≠ 9007199254740992 ∧
      apply .eq (.integer 9007199254740993) (.integer 9007199254740992) = .ok true := by
  have hCompare : (Term.integer 9007199254740993).compare? (.integer 9007199254740992) = some .eq := by
    decide +kernel
  refine ⟨by decide, ?_⟩
  simp only [apply, hCompare, accepts]
  rfl

end Comparison

end SolutionFlow
