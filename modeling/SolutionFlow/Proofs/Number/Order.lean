import Mathlib.Algebra.Order.Ring.Int
import SolutionFlow.Proofs.Number.Rounding

/-! The orders of doubles. The total order of the bit patterns refines the order of the values, and an
integer is compared with a double by value, though the comparison takes the double apart and subtracts
in rounded arithmetic. -/
namespace SolutionFlow

/-- To compare by what an order respects first changes nothing about the order. -/
theorem then_compare {α β : Type} [LinearOrder α] [LinearOrder β] {x y : α} {u v : β}
    (hLe : x ≤ y → u ≤ v) (hGe : y ≤ x → v ≤ u) :
    (compare u v).then (compare x y) = compare x y := by
  rcases lt_trichotomy u v with h | rfl | h
  · have hLess : x < y := lt_of_not_ge fun hNot => (hGe hNot).not_gt h
    rw [compare_lt_iff_lt.mpr h, compare_lt_iff_lt.mpr hLess, Ordering.lt_then]
  · rw [compare_eq_iff_eq.mpr rfl, Ordering.eq_then]
  · have hGreater : y < x := lt_of_not_ge fun hNot => (hLe hNot).not_gt h
    rw [compare_gt_iff_gt.mpr h, compare_gt_iff_gt.mpr hGreater, Ordering.gt_then]

/-- What keeps the order keeps the comparison of what it tells apart. -/
theorem compare_of_monotone {α β : Type} [LinearOrder α] [LinearOrder β] {f : α → β} (hMono : Monotone f)
    {x y : α} (h : f x ≠ f y) : compare (f x) (f y) = compare x y := by
  rcases lt_trichotomy x y with hLess | rfl | hMore
  · rw [compare_lt_iff_lt.mpr hLess, compare_lt_iff_lt.mpr ((hMono hLess.le).lt_of_ne h)]
  · exact absurd rfl h
  · rw [compare_gt_iff_gt.mpr hMore, compare_gt_iff_gt.mpr ((hMono hMore.le).lt_of_ne h.symm)]

theorem compare_of_strictMono {α β : Type} [LinearOrder α] [LinearOrder β] {f : α → β}
    (h : StrictMono f) (x y : α) : compare (f x) (f y) = compare x y := by
  by_cases hSame : x = y
  · rw [compare_eq_iff_eq.mpr hSame, compare_eq_iff_eq.mpr (congrArg f hSame)]
  · exact compare_of_monotone h.monotone (h.injective.ne hSame)

namespace Double

variable {a b d : Double}

theorem exists_unitsPerOne : ∃ k, unitsPerOne = 2 ^ k := by
  unfold unitsPerOne
  generalize 1074 = k
  exact ⟨k, rfl⟩

theorem unitsPerOne_pos : 0 < unitsPerOne := by
  obtain ⟨k, hUnits⟩ := exists_unitsPerOne
  exact hUnits ▸ Nat.two_pow_pos k

theorem absUnits_le (h : a.magnitude ≤ b.magnitude) : a.absUnits ≤ b.absUnits :=
  unitsOf_strictMono.monotone h

/-- On which side of the whole numbers a double lies, if it is not among them. -/
def side (d : Double) : Nat := if d.isFinite then 1 else if d.isNegative then 0 else 2

/-- The value of a finite double. -/
def finiteUnits (d : Double) : Int := if d.isFinite then d.units else 0

theorem side_eq_one_iff (d : Double) : d.side = 1 ↔ d.isFinite = true := by
  unfold side
  split
  · simp [*]
  · split <;> simp [*]

theorem side_le (h : a.totalPlace ≤ b.totalPlace) : a.side ≤ b.side := by
  unfold totalPlace at h
  simp only [side, isFinite, decide_eq_true_eq]
  split at h <;> split at h <;> split <;> split <;> simp [*] <;> omega

theorem units_le (h : a.totalPlace ≤ b.totalPlace) : a.units ≤ b.units := by
  unfold totalPlace at h
  unfold units
  cases hA : a.isNegative <;> cases hB : b.isNegative <;>
    simp only [hA, hB, Bool.false_eq_true, ↓reduceIte] at h ⊢
  · have hAbs : a.absUnits ≤ b.absUnits := absUnits_le (by omega)
    omega
  · omega
  · omega
  · have hAbs : b.absUnits ≤ a.absUnits := absUnits_le (by omega)
    omega

/-- Of two doubles on one side, the one that is not greater in the total order has no greater value. -/
theorem finiteUnits_le (hSide : a.side = b.side) (h : a.totalPlace ≤ b.totalPlace) :
    a.finiteUnits ≤ b.finiteUnits := by
  have hFinite : a.isFinite = b.isFinite := by
    rw [Bool.eq_iff_iff, ← side_eq_one_iff, ← side_eq_one_iff, hSide]
  unfold finiteUnits
  rw [hFinite]
  split
  · exact units_le h
  · exact le_rfl

/-- The total order of the bit patterns refines the order of the values. -/
theorem totalCompare_eq (a b : Double) :
    a.totalCompare b = (compare a.side b.side).then
      ((compare a.finiteUnits b.finiteUnits).then (compare a.totalPlace b.totalPlace)) := by
  rw [totalCompare, ← then_compare (side_le (a := a) (b := b)) side_le]
  cases hCmp : compare a.side b.side with
  | lt => rfl
  | gt => rfl
  | eq =>
      have hSide := compare_eq_iff_eq.mp hCmp
      exact (then_compare (finiteUnits_le hSide) (finiteUnits_le hSide.symm)).symm

/-- The place in the total order tells the bits. -/
theorem eq_of_totalPlace (h : a.totalPlace = b.totalPlace) : a = b := by
  have hSame : a.isNegative = b.isNegative ∧ a.magnitude = b.magnitude := by
    unfold totalPlace at h
    cases hA : a.isNegative <;> cases hB : b.isNegative <;>
      simp only [hA, hB, Bool.false_eq_true, ↓reduceIte] at h <;> simp <;> omega
  have hBits : a.bits.toNat = b.bits.toNat := by rw [toNat_bits, toNat_bits, hSame.1, hSame.2]
  cases a
  cases b
  exact congrArg Double.mk (UInt64.toNat_inj.mp hBits)

/-! Finite doubles. -/

theorem isFinite_iff : d.isFinite = true ↔ d.magnitude < infinityMagnitude := decide_eq_true_iff

theorem isNaN_of_isFinite (h : d.isFinite = true) : d.isNaN = false := by
  have hLess := isFinite_iff.mp h
  exact decide_eq_false (by omega)

theorem isInfinite_of_isFinite (h : d.isFinite = true) : d.isInfinite = false := by
  have hLess := isFinite_iff.mp h
  exact decide_eq_false (by omega)

theorem natAbs_units (d : Double) : d.units.natAbs = d.absUnits := by
  unfold units
  split <;> simp

theorem isNegative_neg (d : Double) : d.neg.isNegative = !d.isNegative :=
  isNegative_ofMagnitude d.magnitude_lt

theorem magnitude_neg (d : Double) : d.neg.magnitude = d.magnitude :=
  magnitude_ofMagnitude d.magnitude_lt

theorem units_neg (d : Double) : d.neg.units = -d.units := by
  unfold units
  rw [isNegative_neg, absUnits_eq, absUnits_eq, magnitude_neg]
  cases d.isNegative <;> simp

/-- The difference of finite numbers is their exact difference, rounded. -/
theorem sub_eq (hA : a.isFinite = true) (hB : b.isFinite = true) :
    a - b = ofUnitRatio
      (if a.units - b.units = 0 then a.isNegative && !b.isNegative else decide (a.units - b.units < 0))
      (a.units - b.units).natAbs 1 := by
  have hNeg : b.neg.isFinite = true := by
    rw [isFinite_iff, magnitude_neg]
    exact isFinite_iff.mp hB
  change a.sub b = _
  simp only [sub, add, withNumbers, isNaN_of_isFinite hA, isNaN_of_isFinite hB, isNaN_of_isFinite hNeg,
    isInfinite_of_isFinite hA, isInfinite_of_isFinite hNeg, isNegative_neg, units_neg, Bool.false_eq_true,
    ↓reduceIte, Int.sub_eq_add_neg]

/-- The sign of a rounded number is that of the exact one. -/
theorem zero_totalCompare_ofUnitRatio {x : Int} {negative : Bool}
    (h : negative = decide (x < 0)) :
    zero.totalCompare (ofUnitRatio negative x.natAbs 1) = compare 0 x := by
  have hZero : zero.totalPlace = 0 := by decide
  have hPlace : (ofUnitRatio negative x.natAbs 1).totalPlace =
      if negative then -((min (rounded x.natAbs) infinityMagnitude : Nat) : Int) - 1
      else ((min (rounded x.natAbs) infinityMagnitude : Nat) : Int) := by
    rw [totalPlace, isNegative_ofUnitRatio, magnitude_ofUnitRatio]
  have hInfinity : 0 < infinityMagnitude := by decide
  rw [totalCompare, hZero, hPlace, h]
  rcases lt_trichotomy x 0 with hLess | rfl | hMore
  · rw [if_pos (decide_eq_true hLess), compare_gt_iff_gt.mpr hLess, compare_gt_iff_gt]
    omega
  · simp [rounded_zero]
  · have hPos : 0 < rounded x.natAbs := rounded_pos (by omega)
    rw [if_neg (by simpa using hMore.le), compare_lt_iff_lt.mpr hMore, compare_lt_iff_lt]
    omega

/-! Whole parts. -/

/-- Whole parts are representable. -/
theorem exists_unitsOf_whole (d : Double) :
    ∃ m ≤ d.magnitude, unitsOf m = d.absUnits / unitsPerOne * unitsPerOne := by
  have hLe : d.absUnits / unitsPerOne * unitsPerOne ≤ d.absUnits := Nat.div_mul_le_self _ _
  have hBits : d.significand ≤ 2 * binadeSize := by
    unfold significand binade binadeSize
    omega
  obtain ⟨m, hM⟩ : ∃ m, unitsOf m = d.absUnits / unitsPerOne * unitsPerOne := by
    have hUnits : d.absUnits = d.significand * 2 ^ d.binade := by rw [absUnits, gap, Nat.pow_eq]
    obtain ⟨k, hOne⟩ := exists_unitsPerOne
    rw [hUnits, hOne]
    rcases Nat.le_total k d.binade with hHigh | hLow
    · have hWhole : 2 ^ k ∣ d.significand * 2 ^ d.binade :=
        Dvd.dvd.mul_left (pow_dvd_pow 2 hHigh) d.significand
      exact ⟨d.magnitude, by rw [Nat.div_mul_cancel hWhole, ← hUnits, absUnits_eq]⟩
    · obtain ⟨e, hE⟩ := Nat.exists_eq_add_of_le hLow
      have hQuotient : d.significand * 2 ^ d.binade / 2 ^ k = d.significand / 2 ^ e := by
        rw [hE, Nat.pow_add, Nat.mul_comm (2 ^ d.binade), Nat.mul_div_mul_right _ _ (Nat.two_pow_pos _)]
      rw [hQuotient]
      exact exists_unitsOf ((Nat.div_le_self _ _).trans hBits) k
  refine ⟨m, unitsOf_strictMono.le_iff_le.mp ?_, hM⟩
  rw [hM, ← absUnits_eq]
  exact hLe

theorem absUnits_trunc (h : d.isFinite = true) :
    d.trunc.isFinite = true ∧ d.trunc.absUnits = d.absUnits / unitsPerOne * unitsPerOne := by
  obtain ⟨m, hLe, hM⟩ := exists_unitsOf_whole d
  have hLess := isFinite_iff.mp h
  have hMagnitude : d.trunc.magnitude = m := by
    rw [trunc, magnitude_ofUnitRatio, ← hM, rounded_unitsOf]
    omega
  rw [isFinite_iff, absUnits_eq, hMagnitude]
  exact ⟨by omega, hM⟩

/-- Without its fraction, a finite number has the value of the integer in front of it. -/
theorem units_trunc (h : d.isFinite = true) : d.trunc.units = d.toInt * unitsPerOne := by
  have hSign : d.trunc.isNegative = d.isNegative := isNegative_ofUnitRatio _ _
  rw [units, toInt, units, hSign, (absUnits_trunc h).2]
  generalize unitsPerOne = u
  cases d.isNegative <;> simp [Int.neg_tdiv]

theorem toInt_trunc (h : d.isFinite = true) : d.trunc.toInt = d.toInt := by
  have hPos := Int.natCast_pos.mpr unitsPerOne_pos
  rw [toInt, units_trunc h, Int.mul_tdiv_cancel _ hPos.ne']

/-- The fraction that is left when the whole part is taken away has the sign of the exact one. -/
theorem compare_fraction (h : d.isFinite = true) :
    zero.totalCompare (d - d.trunc) = compare 0 (d.units - d.toInt * unitsPerOne) := by
  have hSign : d.trunc.isNegative = d.isNegative := isNegative_ofUnitRatio _ _
  rw [sub_eq h (absUnits_trunc h).1, units_trunc h]
  refine zero_totalCompare_ofUnitRatio ?_
  split
  next hNone =>
    rw [hNone, hSign]
    simp
  next => rfl

/-- An integer is compared with a finite number by its whole part, and by its fraction if that is the
same. -/
theorem compare_whole_fraction (i : Int) (d : Double) :
    (compare i d.toInt).then (compare 0 (d.units - d.toInt * unitsPerOne)) =
      compare (i * unitsPerOne) d.units := by
  have hPos := Int.natCast_pos.mpr unitsPerOne_pos
  have hSplit := Int.tdiv_mul_add_tmod d.units unitsPerOne
  have hLow := Int.lt_tmod_of_pos d.units hPos
  have hHigh := Int.tmod_lt_of_pos d.units hPos
  rw [← toInt] at hSplit
  generalize d.toInt = w at *
  generalize Int.tmod d.units unitsPerOne = r at *
  generalize (unitsPerOne : Int) = u at *
  rcases lt_trichotomy i w with hLess | rfl | hMore
  · have hFar : (i + 1) * u ≤ w * u := Int.mul_le_mul_of_nonneg_right hLess hPos.le
    rw [Int.add_mul] at hFar
    rw [compare_lt_iff_lt.mpr hLess, Ordering.lt_then, eq_comm, compare_lt_iff_lt]
    omega
  · rw [compare_eq_iff_eq.mpr rfl, Ordering.eq_then]
    rcases lt_trichotomy 0 r with hLess | hSame | hMore
    · rw [compare_lt_iff_lt.mpr (by omega), compare_lt_iff_lt.mpr (by omega)]
    · rw [compare_eq_iff_eq.mpr (by omega), compare_eq_iff_eq.mpr (by omega)]
    · rw [compare_gt_iff_gt.mpr (by omega), compare_gt_iff_gt.mpr (by omega)]
  · have hFar : (w + 1) * u ≤ i * u := Int.mul_le_mul_of_nonneg_right hMore hPos.le
    rw [Int.add_mul] at hFar
    rw [compare_gt_iff_gt.mpr hMore, Ordering.gt_then, eq_comm, compare_gt_iff_gt]
    omega

/-! The range of the integers. -/

theorem unitsOf_aboveIntegers : unitsOf (1086 * binadeSize) = 2 ^ 63 * unitsPerOne := by decide +kernel

theorem place_aboveIntegers : aboveIntegers.place = ((1086 * binadeSize : Nat) : Int) := by decide

theorem place_neg_aboveIntegers : aboveIntegers.neg.place = -((1086 * binadeSize : Nat) : Int) := by decide

/-- A not-a-number lies beyond everything that is none, on the side of its sign. -/
theorem totalCompare_of_isNaN (hA : a.isNaN = false) (hD : d.isNaN = true) :
    a.totalCompare d = if d.isNegative then .gt else .lt := by
  simp only [isNaN, decide_eq_false_iff_not, decide_eq_true_eq] at hA hD
  unfold totalCompare totalPlace
  cases d.isNegative
  · rw [if_neg Bool.false_ne_true, if_neg Bool.false_ne_true, compare_lt_iff_lt]
    split <;> omega
  · rw [if_pos rfl, if_pos rfl, compare_gt_iff_gt]
    split <;> omega

theorem isNaN_ofInt (i : Int) : (ofInt i).isNaN = false := by
  have hLe : (ofInt i).magnitude ≤ infinityMagnitude :=
    (magnitude_ofUnitRatio _ _).trans_le (Nat.min_le_right _ _)
  exact decide_eq_false (by omega)

/-- What lies as far out as the number above all integers is above all of them. -/
theorem lt_units_of_place (i : Int64) (h : aboveIntegers.place ≤ d.place) :
    d.isNegative = false ∧ i.toInt * unitsPerOne < d.units := by
  rw [place_aboveIntegers, place] at h
  cases hSign : d.isNegative with
  | true =>
      rw [hSign, if_pos rfl] at h
      have hFar : 0 < 1086 * binadeSize := by decide
      omega
  | false =>
      rw [hSign, if_neg Bool.false_ne_true] at h
      have hUnits : 2 ^ 63 * unitsPerOne ≤ d.absUnits :=
        unitsOf_aboveIntegers ▸ unitsOf_strictMono.monotone (Int.ofNat_le.mp h)
      have hBelow : i.toInt * unitsPerOne < 2 ^ 63 * (unitsPerOne : Int) :=
        Int.mul_lt_mul_of_pos_right i.toInt_lt (Int.natCast_pos.mpr unitsPerOne_pos)
      refine ⟨rfl, hBelow.trans_le ?_⟩
      rw [units, hSign, if_neg Bool.false_ne_true]
      exact_mod_cast hUnits

theorem units_lt_of_place (i : Int64) (h : d.place < aboveIntegers.neg.place) :
    d.isNegative = true ∧ d.units < i.toInt * unitsPerOne := by
  rw [place_neg_aboveIntegers, place] at h
  cases hSign : d.isNegative with
  | false =>
      rw [hSign, if_neg Bool.false_ne_true] at h
      omega
  | true =>
      rw [hSign, if_pos rfl] at h
      have hUnits : 2 ^ 63 * unitsPerOne < d.absUnits :=
        unitsOf_aboveIntegers ▸ unitsOf_strictMono (show 1086 * binadeSize < d.magnitude by omega)
      have hAbove : -2 ^ 63 * (unitsPerOne : Int) ≤ i.toInt * unitsPerOne :=
        Int.mul_le_mul_of_nonneg_right i.le_toInt (Int.natCast_nonneg _)
      refine ⟨rfl, lt_of_lt_of_le ?_ hAbove⟩
      rw [units, hSign, if_pos rfl, Int.neg_mul]
      exact Int.neg_lt_neg (by exact_mod_cast hUnits)

theorem isFinite_of_place (hLow : aboveIntegers.neg.place ≤ d.place) (hHigh : d.place < aboveIntegers.place) :
    d.isFinite = true := by
  rw [place_neg_aboveIntegers, place] at hLow
  rw [place_aboveIntegers, place] at hHigh
  have hFar : 1086 * binadeSize < infinityMagnitude := by decide
  rw [isFinite_iff]
  cases hSign : d.isNegative <;> simp only [hSign, Bool.false_eq_true, ↓reduceIte] at hLow hHigh <;> omega

/-- An integer is compared exactly with the value of a double, and what is not finite lies beyond all
integers. -/
theorem compareWhole_eq (i : Int64) (d : Double) :
    compareWhole i d =
      (compare 1 d.side).then (compare (i.toInt * unitsPerOne) d.finiteUnits) := by
  unfold compareWhole
  split
  next hNaN =>
    have hFinite : d.isFinite = false := by
      have hNot := isNaN_of_isFinite (d := d)
      simpa [hNaN] using hNot
    rw [totalCompare_of_isNaN (isNaN_ofInt _) hNaN, side, hFinite, if_neg Bool.false_ne_true]
    split <;> rfl
  next =>
    split
    next hBeyond =>
      obtain ⟨hSign, hLess⟩ := lt_units_of_place i hBeyond
      unfold side finiteUnits
      split
      · rw [compare_eq_iff_eq.mpr rfl, Ordering.eq_then, compare_lt_iff_lt.mpr hLess]
      · rw [if_neg (by simp [hSign])]
        rfl
    next hNear =>
      split
      next hBeyond =>
        obtain ⟨hSign, hMore⟩ := units_lt_of_place i hBeyond
        unfold side finiteUnits
        split
        · rw [compare_eq_iff_eq.mpr rfl, Ordering.eq_then, compare_gt_iff_gt.mpr hMore]
        · rfl
      next hAbove =>
        have hFinite := isFinite_of_place (not_lt.mp hAbove) (not_le.mp hNear)
        rw [toInt_trunc hFinite, compare_fraction hFinite, compare_whole_fraction, side, finiteUnits,
          if_pos hFinite, if_pos hFinite, compare_eq_iff_eq.mpr rfl, Ordering.eq_then]

/-! Nearest doubles. -/

/-- The place of the double that is nearest to a number of units. -/
def nearestPlace (x : Int) : Int :=
  let m : Nat := min (rounded x.natAbs) infinityMagnitude
  if x < 0 then -m else m

/-- Rounding keeps the order. -/
theorem nearestPlace_le {x y : Int} (h : x ≤ y) : nearestPlace x ≤ nearestPlace y := by
  simp only [nearestPlace]
  split <;> split
  · have hMore : rounded y.natAbs ≤ rounded x.natAbs := rounded_mono (by omega)
    omega
  · omega
  · omega
  · have hMore : rounded x.natAbs ≤ rounded y.natAbs := rounded_mono (by omega)
    omega

theorem nearestPlace_bounds (x : Int) :
    -(infinityMagnitude : Int) ≤ nearestPlace x ∧ nearestPlace x ≤ infinityMagnitude := by
  simp only [nearestPlace]
  split <;> omega

/-- What a double stands for is rounded to its place. -/
theorem nearestPlace_units (h : d.isFinite = true) : nearestPlace d.units = d.place := by
  have hLess := isFinite_iff.mp h
  have hRounded : min (rounded d.units.natAbs) infinityMagnitude = d.magnitude := by
    rw [natAbs_units, absUnits_eq, rounded_unitsOf]
    omega
  rw [nearestPlace, hRounded, units, place, absUnits_eq]
  cases d.isNegative with
  | false => simp
  | true =>
      rcases Nat.eq_zero_or_pos d.magnitude with hZero | hPos
      · simp [hZero]
      · have hUnits : 0 < unitsOf d.magnitude := unitsOf_zero ▸ unitsOf_strictMono hPos
        simp [hUnits]

theorem place_ofInt (i : Int) : (ofInt i).place = nearestPlace (i * unitsPerOne) := by
  have hSign : i * (unitsPerOne : Int) < 0 ↔ i < 0 := by
    have hPos := Int.natCast_pos.mpr unitsPerOne_pos
    rw [mul_neg_iff]
    omega
  simp only [place, ofInt, ofRatio, isNegative_ofUnitRatio, magnitude_ofUnitRatio, nearestPlace,
    Int.natAbs_mul, Int.natAbs_natCast, hSign, decide_eq_true_eq]

/-- Doubles in one place have one value. -/
theorem units_eq_of_place (h : a.place = b.place) : a.units = b.units := by
  unfold place at h
  unfold units
  rw [absUnits_eq, absUnits_eq]
  cases hA : a.isNegative <;> cases hB : b.isNegative <;>
    simp only [hA, hB, Bool.false_eq_true, ↓reduceIte] at h ⊢
  · rw [Int.ofNat_inj.mp h]
  · obtain ⟨hZeroA, hZeroB⟩ : a.magnitude = 0 ∧ b.magnitude = 0 := by omega
    simp [hZeroA, hZeroB, unitsOf_zero]
  · obtain ⟨hZeroA, hZeroB⟩ : a.magnitude = 0 ∧ b.magnitude = 0 := by omega
    simp [hZeroA, hZeroB, unitsOf_zero]
  · rw [Int.ofNat_inj.mp (Int.neg_inj.mp h)]

/-- Integers up to 2^53 are doubles. -/
theorem units_ofInt {i : Int} (h : i.natAbs ≤ 2 ^ 53) :
    (ofInt i).isFinite = true ∧ (ofInt i).units = i * unitsPerOne := by
  obtain ⟨k, hOne⟩ := exists_unitsPerOne
  obtain ⟨m, hM⟩ := exists_unitsOf (s := i.natAbs) (h.trans (by decide)) k
  have hFar : m < 1086 * binadeSize := by
    rw [← unitsOf_strictMono.lt_iff_lt, unitsOf_aboveIntegers, hM, ← hOne]
    exact Nat.mul_lt_mul_of_pos_right (h.trans_lt (by decide)) unitsPerOne_pos
  have hLess : m < infinityMagnitude := hFar.trans (by decide)
  have hMagnitude : (ofInt i).magnitude = m := by
    rw [ofInt, ofRatio, magnitude_ofUnitRatio, hOne, ← hM, rounded_unitsOf]
    omega
  refine ⟨isFinite_iff.mpr (hMagnitude ▸ hLess), ?_⟩
  rw [units, absUnits_eq, hMagnitude, hM, ← hOne, ofInt, ofRatio, isNegative_ofUnitRatio]
  rcases lt_or_ge i 0 with hNegative | hPositive
  · rw [decide_eq_true hNegative, if_pos rfl, Nat.cast_mul, Int.ofNat_natAbs_of_nonpos hNegative.le,
      Int.neg_mul, Int.neg_neg]
  · rw [decide_eq_false hPositive.not_gt, if_neg Bool.false_ne_true, Nat.cast_mul,
      Int.natAbs_of_nonneg hPositive]

end Double

end SolutionFlow
