import Mathlib.Algebra.Order.Ring.Nat
import Mathlib.Order.Monotone.Basic
import Mathlib.Tactic.Ring
import SolutionFlow.Number.Double

/-! Rounding to doubles. Magnitudes stand for numbers of units and grow with them; rounding takes the
magnitude of what is representable back, and keeps the order of what it rounds. -/
namespace SolutionFlow.Double

/-- How many units a magnitude stands for. -/
def unitsOf (m : Nat) : Nat :=
  (m - (m / binadeSize - 1) * binadeSize) * Nat.pow 2 (m / binadeSize - 1)

/-- The binade in which a number of units is rounded. -/
def binadeOf (n : Nat) : Nat := Nat.log2 n - 52

/-- The magnitude nearest to a number of units, as if there were no greatest one. -/
def rounded (n : Nat) : Nat :=
  binadeOf n * binadeSize + roundHalfEven n (Nat.pow 2 (binadeOf n))

variable {a b m n : Nat}

theorem absUnits_eq (d : Double) : d.absUnits = unitsOf d.magnitude := rfl

theorem ofUnitRatio_one (negative : Bool) (n : Nat) :
    ofUnitRatio negative n 1 = ofMagnitude negative (min (rounded n) infinityMagnitude) := by
  simp only [ofUnitRatio, rounded, binadeOf, Nat.div_one, Nat.one_mul]

/-- The next magnitude stands for a gap of the binade more. -/
theorem unitsOf_succ (m : Nat) : unitsOf (m + 1) = unitsOf m + 2 ^ (m / binadeSize - 1) := by
  have hSplit := Nat.div_add_mod m binadeSize
  have hBound := Nat.mod_lt m (show 0 < binadeSize by decide)
  simp only [unitsOf, Nat.pow_eq]
  by_cases hSame : (m + 1) / binadeSize = m / binadeSize
  · have hMore : m + 1 - (m / binadeSize - 1) * binadeSize =
        m - (m / binadeSize - 1) * binadeSize + 1 := by
      unfold binadeSize at *
      omega
    rw [hSame, hMore, Nat.add_mul, Nat.one_mul]
  · have hNext : (m + 1) / binadeSize = m / binadeSize + 1 := by
      unfold binadeSize at *
      omega
    have hLast : m + 1 = (m / binadeSize + 1) * binadeSize := by
      unfold binadeSize at *
      omega
    rw [hNext, Nat.add_sub_cancel]
    rcases Nat.eq_zero_or_eq_succ_pred (m / binadeSize) with hLow | hHigh
    · rw [hLow]
      simp
    · generalize m / binadeSize = q at *
      obtain ⟨k, rfl⟩ : ∃ k, q = k + 1 := ⟨_, hHigh⟩
      have hTop : m + 1 - (k + 1) * binadeSize = binadeSize := by
        unfold binadeSize at *
        omega
      have hBelow : m - k * binadeSize + 1 = 2 * binadeSize := by
        unfold binadeSize at *
        omega
      rw [hTop, Nat.add_sub_cancel, ← Nat.succ_mul, Nat.succ_eq_add_one, hBelow, Nat.pow_succ]
      ring

theorem unitsOf_strictMono : StrictMono unitsOf :=
  strictMono_nat_of_lt_succ fun m => by
    rw [unitsOf_succ]
    exact Nat.lt_add_of_pos_right (Nat.two_pow_pos _)

theorem unitsOf_zero : unitsOf 0 = 0 := by decide

/-- Numbers of at most as many leading bits as doubles have are representable. -/
theorem exists_unitsOf {s : Nat} (hBits : s ≤ 2 * binadeSize) (e : Nat) :
    ∃ m, unitsOf m = s * 2 ^ e := by
  induction e generalizing s with
  | zero =>
      refine ⟨s, ?_⟩
      have hLow : s / binadeSize ≤ 2 := by
        unfold binadeSize at *
        omega
      by_cases hTop : s = 2 * binadeSize
      · subst hTop
        decide
      · have hBinade : s / binadeSize - 1 = 0 := by
          unfold binadeSize at *
          omega
        simp [unitsOf, hBinade]
  | succ e ih =>
      by_cases hSmall : s ≤ binadeSize
      · obtain ⟨m, hM⟩ := ih (s := 2 * s) (by omega)
        exact ⟨m, by rw [hM, Nat.pow_succ]; ring⟩
      · have hBinade : ((e + 1) * binadeSize + s) / binadeSize - 1 = e + 1 ∨ s = 2 * binadeSize := by
          unfold binadeSize at *
          omega
        rcases hBinade with hBinade | rfl
        · refine ⟨(e + 1) * binadeSize + s, ?_⟩
          rw [unitsOf, hBinade, Nat.add_sub_cancel_left, Nat.pow_eq]
        · have hNext : (e + 3) * binadeSize / binadeSize - 1 = e + 2 := by
            rw [Nat.mul_div_cancel _ (by decide)]
            rfl
          have hRest : (e + 3) * binadeSize - (e + 2) * binadeSize = binadeSize := by
            rw [← Nat.sub_mul]
            simp
          refine ⟨(e + 3) * binadeSize, ?_⟩
          rw [unitsOf, hNext, hRest, Nat.pow_eq, Nat.pow_succ 2 (e + 1)]
          ring

theorem roundHalfEven_cases (n d : Nat) :
    roundHalfEven n d = n / d ∧ 2 * (n % d) ≤ d ∨
      roundHalfEven n d = n / d + 1 ∧ d ≤ 2 * (n % d) := by
  simp only [roundHalfEven]
  split
  · exact .inl ⟨rfl, by omega⟩
  · split
    · exact .inr ⟨rfl, by omega⟩
    · rcases Nat.mod_two_eq_zero_or_one (n / d) with hEven | hOdd
      · exact .inl ⟨by rw [hEven, Nat.add_zero], by omega⟩
      · exact .inr ⟨by rw [hOdd], by omega⟩

theorem roundHalfEven_mul (k : Nat) {d : Nat} (h : 0 < d) : roundHalfEven (k * d) d = k := by
  simp only [roundHalfEven, Nat.mul_mod_left, Nat.mul_zero, if_pos h]
  exact Nat.mul_div_cancel k h

theorem roundHalfEven_mono (d : Nat) (h : a ≤ b) : roundHalfEven a d ≤ roundHalfEven b d := by
  have hQuotient : a / d ≤ b / d := Nat.div_le_div_right h
  rcases hQuotient.eq_or_lt with hSame | hLess
  · have hA := Nat.div_add_mod a d
    have hB := Nat.div_add_mod b d
    rw [← hSame] at hB
    have hRest : a % d ≤ b % d := by omega
    simp only [roundHalfEven, ← hSame]
    split
    · split <;> [skip; split] <;> omega
    · have hNot : ¬2 * (b % d) < d := by omega
      rw [if_neg hNot]
      split <;> split <;> omega
  · rcases roundHalfEven_cases a d with ⟨hA, -⟩ | ⟨hA, -⟩ <;>
      rcases roundHalfEven_cases b d with ⟨hB, -⟩ | ⟨hB, -⟩ <;> omega

/-- A number is below the end of its binade. -/
theorem lt_of_binadeOf (n : Nat) : n < 2 * binadeSize * 2 ^ binadeOf n := by
  have hLog : n < 2 ^ (Nat.log2 n + 1) := Nat.lt_log2_self
  have hTop : Nat.log2 n + 1 ≤ 53 + binadeOf n := by
    unfold binadeOf
    omega
  calc n
    _ < 2 ^ (Nat.log2 n + 1) := hLog
    _ ≤ 2 ^ (53 + binadeOf n) := Nat.pow_le_pow_right (by decide) hTop
    _ = 2 * binadeSize * 2 ^ binadeOf n := by
        rw [Nat.pow_add]
        rfl

/-- A number above the lowest binade is not below its binade. -/
theorem le_of_binadeOf_pos (h : 0 < binadeOf n) : binadeSize * 2 ^ binadeOf n ≤ n := by
  have hLog : Nat.log2 n = 52 + binadeOf n := by
    unfold binadeOf at *
    omega
  have hNe : n ≠ 0 := by
    rintro rfl
    simp [binadeOf] at h
  calc binadeSize * 2 ^ binadeOf n
    _ = 2 ^ (52 + binadeOf n) := by
        rw [Nat.pow_add]
        rfl
    _ ≤ n := hLog ▸ Nat.log2_self_le hNe

theorem rounded_le (n : Nat) : rounded n ≤ (binadeOf n + 2) * binadeSize := by
  have hQuotient : n / 2 ^ binadeOf n < 2 * binadeSize :=
    (Nat.div_lt_iff_lt_mul (Nat.two_pow_pos _)).mpr (lt_of_binadeOf n)
  have hRound := roundHalfEven_cases n (2 ^ binadeOf n)
  rw [rounded, Nat.pow_eq, Nat.add_mul]
  omega

theorem le_rounded (h : 0 < binadeOf n) : (binadeOf n + 1) * binadeSize ≤ rounded n := by
  have hQuotient : binadeSize ≤ n / 2 ^ binadeOf n :=
    (Nat.le_div_iff_mul_le (Nat.two_pow_pos _)).mpr (le_of_binadeOf_pos h)
  have hRound := roundHalfEven_cases n (2 ^ binadeOf n)
  rw [rounded, Nat.pow_eq, Nat.add_mul]
  omega

/-- Rounding keeps the order. Within a binade quotients are rounded; the end of a lower binade is not
above the beginning of a higher one. -/
theorem rounded_mono : Monotone rounded := by
  intro a b h
  have hBinade : binadeOf a ≤ binadeOf b := by
    refine Nat.sub_le_sub_right ?_ 52
    by_cases hZero : a = 0
    · simp [hZero]
    · exact (Nat.le_log2 (by omega)).mpr ((Nat.log2_self_le hZero).trans h)
  rcases hBinade.eq_or_lt with hSame | hLess
  · rw [rounded, rounded, ← hSame]
    exact Nat.add_le_add_left (roundHalfEven_mono _ h) _
  · calc rounded a
      _ ≤ (binadeOf a + 2) * binadeSize := rounded_le a
      _ ≤ (binadeOf b + 1) * binadeSize := Nat.mul_le_mul_right _ (by omega)
      _ ≤ rounded b := le_rounded (by omega)

/-- A number with as many leading bits as doubles have is rounded in the binade behind these. -/
theorem binadeOf_mul {s k : Nat} (hLow : 2 ^ 52 ≤ s) (hHigh : s < 2 ^ 53) : binadeOf (s * 2 ^ k) = k := by
  have hNe : s * 2 ^ k ≠ 0 := by
    have hPos := Nat.two_pow_pos k
    exact Nat.mul_ne_zero (by omega) (by omega)
  have hLog : Nat.log2 (s * 2 ^ k) = 52 + k := by
    rw [Nat.log2_eq_iff hNe, Nat.add_right_comm, Nat.pow_add, Nat.pow_add]
    exact ⟨Nat.mul_le_mul_right _ hLow, Nat.mul_lt_mul_of_pos_right hHigh (Nat.two_pow_pos k)⟩
  rw [binadeOf, hLog]
  omega

/-- What is representable is rounded to itself. -/
theorem rounded_unitsOf (m : Nat) : rounded (unitsOf m) = m := by
  by_cases hLow : m / binadeSize - 1 = 0
  · have hUnits : unitsOf m = m := by simp [unitsOf, hLow]
    have hBinade : binadeOf m = 0 := by
      by_cases hZero : m = 0
      · simp [hZero, binadeOf]
      · have hLog : Nat.log2 m < 53 := (Nat.log2_lt hZero).mpr (by
          unfold binadeSize at hLow
          omega)
        unfold binadeOf
        omega
    simp [hUnits, rounded, hBinade, roundHalfEven, Nat.mod_one]
  · have hSplit := Nat.div_add_mod m binadeSize
    have hBound := Nat.mod_lt m (show 0 < binadeSize by decide)
    obtain ⟨k, hK⟩ : ∃ k, m / binadeSize - 1 = k := ⟨_, rfl⟩
    obtain ⟨s, hS⟩ : ∃ s, m - k * binadeSize = s := ⟨_, rfl⟩
    have hSize : 2 ^ 52 ≤ s ∧ s < 2 ^ 53 := by
      unfold binadeSize at *
      omega
    have hUnits : unitsOf m = s * 2 ^ k := by rw [unitsOf, hK, hS, Nat.pow_eq]
    rw [hUnits, rounded, binadeOf_mul hSize.1 hSize.2, Nat.pow_eq, roundHalfEven_mul s (Nat.two_pow_pos k)]
    unfold binadeSize at *
    omega

/-- What is not below a representable number is not rounded below it. -/
theorem le_rounded_of_le (h : unitsOf m ≤ n) : m ≤ rounded n :=
  (rounded_unitsOf m).symm.trans_le (rounded_mono h)

/-- So a positive number of units is not rounded to zero. -/
theorem rounded_pos (h : 0 < n) : 0 < rounded n := le_rounded_of_le (m := 1) h

theorem rounded_zero : rounded 0 = 0 := rounded_unitsOf 0

/-! A double is made of its sign and its magnitude. -/

variable {negative : Bool}

theorem toNat_bits_ofMagnitude (h : m < signBit) :
    (ofMagnitude negative m).bits.toNat = (if negative then signBit else 0) + m := by
  rw [ofMagnitude, UInt64.toNat_ofNat']
  refine Nat.mod_eq_of_lt ?_
  unfold signBit at *
  split <;> omega

theorem magnitude_ofMagnitude (h : m < signBit) : (ofMagnitude negative m).magnitude = m := by
  rw [magnitude, toNat_bits_ofMagnitude h]
  unfold signBit at *
  split <;> omega

theorem isNegative_ofMagnitude (h : m < signBit) : (ofMagnitude negative m).isNegative = negative := by
  rw [isNegative, toNat_bits_ofMagnitude h]
  cases negative with
  | true => simp
  | false => simpa using h

theorem toNat_bits (d : Double) :
    d.bits.toNat = (if d.isNegative then signBit else 0) + d.magnitude := by
  have hBits := d.bits.toNat_lt
  by_cases hSign : signBit ≤ d.bits.toNat
  · rw [isNegative, decide_eq_true hSign, if_pos rfl, magnitude]
    unfold signBit at *
    omega
  · rw [isNegative, decide_eq_false hSign, if_neg Bool.false_ne_true, magnitude,
      Nat.mod_eq_of_lt (not_le.mp hSign), Nat.zero_add]

theorem magnitude_lt (d : Double) : d.magnitude < signBit := Nat.mod_lt _ (by decide)

theorem infinityMagnitude_lt : infinityMagnitude < signBit := by decide

/-- The number nearest to a number of units has their rounded magnitude, as far as that is one. -/
theorem magnitude_ofUnitRatio (negative : Bool) (n : Nat) :
    (ofUnitRatio negative n 1).magnitude = min (rounded n) infinityMagnitude := by
  rw [ofUnitRatio_one]
  exact magnitude_ofMagnitude ((Nat.min_le_right _ _).trans_lt infinityMagnitude_lt)

theorem isNegative_ofUnitRatio (negative : Bool) (n : Nat) :
    (ofUnitRatio negative n 1).isNegative = negative := by
  rw [ofUnitRatio_one]
  exact isNegative_ofMagnitude ((Nat.min_le_right _ _).trans_lt infinityMagnitude_lt)

end SolutionFlow.Double
