import SolutionFlow.Expression.Compare
import SolutionFlow.Proofs.Term.Order

/-! The comparisons of expressions fit together. Terms of one scale are compared by their places on it;
terms without a common scale are only equal or not. A not-a-number is on no scale, so it is equal to
itself but not comparable with itself. -/
namespace SolutionFlow

/-- What terms can be compared on. Texts need the same language or datatype. -/
inductive Scale where
  | number
  | truth
  | text
  | language (tag : String)
  | datatype (name : String)
deriving DecidableEq

namespace Term

def scale? : Term → Option Scale
  | .integer _ => some .number
  | .double d => if d.isNaN then none else some .number
  | .boolean _ => some .truth
  | .string _ => some .text
  | .langString _ tag => some (.language tag)
  | .typed _ name => some (.datatype name)
  | .iri _ | .blank _ => none

/-- The place of a number among the doubles. -/
def doublePlace (l : Term) : Int :=
  match l.toDouble? with
  | some d => d.place
  | none => 0

/-- The order of terms of one scale. -/
def cmpOnScale : Term → Term → Ordering :=
  compareLex (compareOn doublePlace) <| compareLex (compareOn flag) (compareOn form)

instance : Std.TransCmp cmpOnScale := by
  unfold cmpOnScale
  infer_instance

/-- Both terms are on one scale. -/
def Comparable (l r : Term) : Prop := ∃ scale, l.scale? = some scale ∧ r.scale? = some scale

variable {l m r : Term}

theorem Comparable.symm (h : l.Comparable r) : r.Comparable l := by
  obtain ⟨scale, hL, hR⟩ := h
  exact ⟨scale, hR, hL⟩

theorem Comparable.trans (hLeft : l.Comparable m) (hRight : m.Comparable r) : l.Comparable r := by
  obtain ⟨scale, hL, hM⟩ := hLeft
  obtain ⟨other, hOther, hR⟩ := hRight
  exact ⟨scale, hL, hR.trans (hOther.symm.trans hM)⟩

theorem comparable_comm : l.Comparable r ↔ r.Comparable l := ⟨.symm, .symm⟩

theorem scale?_number : l.scale? = some .number ↔ ∃ a, l.toDouble? = some a ∧ a.isNaN = false := by
  cases l <;> simp [scale?, toDouble?, Double.isNaN_ofInt]

theorem cmpOnScale_numbers (hL : l.scale? = some .number) (hR : r.scale? = some .number) :
    cmpOnScale l r = compare l.doublePlace r.doublePlace := by
  have hPlain : ∀ {m : Term}, m.scale? = some .number → m.flag = false ∧ m.form = "" := fun {m} h => by
    cases m <;> simp [scale?] at h <;> exact ⟨rfl, rfl⟩
  simp [cmpOnScale, compareLex, compareOn, hPlain hL, hPlain hR]

/-- Numbers are compared as doubles. -/
theorem compare?_numbers {a b : Double} (hL : l.toDouble? = some a) (hR : r.toDouble? = some b) :
    l.compare? r = a.compare? b := by
  simp only [compare?, hL, hR]

/-- Terms of one scale are compared by their places on it. -/
theorem Comparable.compare?_eq (h : l.Comparable r) : l.compare? r = some (cmpOnScale l r) := by
  obtain ⟨scale, hL, hR⟩ := h
  cases scale
  case number =>
    obtain ⟨a, hA, hNumber⟩ := scale?_number.mp hL
    obtain ⟨b, hB, hOther⟩ := scale?_number.mp hR
    simp [compare?_numbers hA hB, Double.compare?, hNumber, hOther, cmpOnScale_numbers hL hR,
      doublePlace, hA, hB]
  all_goals
    cases l <;> simp [scale?] at hL
    cases r <;> simp [scale?] at hR
    subst_vars
    simp [compare?, toDouble?, cmpOnScale, compareLex, compareOn, doublePlace, flag, form, lexical]

/-- Terms that are compared are on one scale. -/
theorem comparable_of_compare? {o : Ordering} (h : l.compare? r = some o) : l.Comparable r := by
  by_cases hNumbers : ∃ a b, l.toDouble? = some a ∧ r.toDouble? = some b
  · obtain ⟨a, b, hA, hB⟩ := hNumbers
    rw [compare?_numbers hA hB, Double.compare?] at h
    split at h
    · cases h
    · next hNaN =>
      simp only [Bool.or_eq_true, not_or, Bool.not_eq_true] at hNaN
      exact ⟨.number, scale?_number.mpr ⟨a, hA, hNaN.1⟩, scale?_number.mpr ⟨b, hB, hNaN.2⟩⟩
  · cases l <;> cases r <;> simp [compare?, toDouble?] at h hNumbers
    all_goals exact ⟨_, rfl, by simp [scale?, h]⟩

theorem compare?_eq_none (h : ¬l.Comparable r) : l.compare? r = none :=
  Option.eq_none_iff_forall_ne_some.mpr fun _ hSome => h (comparable_of_compare? hSome)

end Term

namespace Comparison

open Term

variable {l m r : Term}

/-- The comparisons that need an order. -/
def orderings : List Comparison := [.lt, .le, .gt, .ge]

theorem apply_of_comparable (op : Comparison) (h : l.Comparable r) :
    op.apply l r = .ok (op.accepts (cmpOnScale l r)) := by
  simp only [apply, h.compare?_eq]

/-- Terms without a common scale are equal or not, and neither is before the other. -/
theorem apply_of_not_comparable (h : ¬l.Comparable r) :
    apply .eq l r = .ok (decide (l = r)) ∧ apply .ne l r = .ok (!decide (l = r)) ∧
      ∀ op ∈ orderings, apply op l r = .error (.type (.incomparable l r)) := by
  have hNone := compare?_eq_none h
  simp [apply, hNone, orderings, decide_not]

/-- Terms are equal if they are the same, or if they are in one place of one scale. -/
theorem eq_holds_iff :
    apply .eq l r = .ok true ↔ l = r ∨ l.Comparable r ∧ cmpOnScale l r = .eq := by
  by_cases h : l.Comparable r
  · rw [apply_of_comparable .eq h]
    constructor
    · intro hHolds
      exact .inr ⟨h, by simpa [accepts] using hHolds⟩
    · rintro (rfl | ⟨-, hCmp⟩)
      · simp [accepts, Std.ReflCmp.compare_self]
      · simp [accepts, hCmp]
  · simp [(apply_of_not_comparable h).1, h]

theorem lt_holds_iff : apply .lt l r = .ok true ↔ l.Comparable r ∧ cmpOnScale l r = .lt := by
  by_cases h : l.Comparable r
  · simp [apply_of_comparable .lt h, accepts, h]
  · simp [(apply_of_not_comparable h).2.2 .lt (by decide), h]

theorem gt_holds_iff : apply .gt l r = .ok true ↔ l.Comparable r ∧ cmpOnScale l r = .gt := by
  by_cases h : l.Comparable r
  · simp [apply_of_comparable .gt h, accepts, h]
  · simp [(apply_of_not_comparable h).2.2 .gt (by decide), h]

/-- Of two things in order, one is before the other, or both are in one place. -/
theorem existsUnique_accepts (o : Ordering) :
    ∃! op, op ∈ [Comparison.lt, .eq, .gt] ∧ op.accepts o = true := by
  cases o
  case lt => exact ⟨.lt, by decide, fun op => by cases op <;> decide⟩
  case eq => exact ⟨.eq, by decide, fun op => by cases op <;> decide⟩
  case gt => exact ⟨.gt, by decide, fun op => by cases op <;> decide⟩

/-- The laws that comparisons of terms keep. -/
structure Coherent (apply : Comparison → Term → Term → Except EvalError Bool) : Prop where
  negation : ∀ l r, ∃ same, apply .eq l r = .ok same ∧ apply .ne l r = .ok !same
  together : ∀ l r,
    (∀ op ∈ orderings, (apply op l r).isOk ∧ (apply op r l).isOk) ∨
      ∀ op ∈ orderings, apply op l r = .error (.type (.incomparable l r)) ∧
        apply op r l = .error (.type (.incomparable r l))
  trichotomy : ∀ l r, (apply .lt l r).isOk →
    ∃! op, op ∈ [Comparison.lt, .eq, .gt] ∧ apply op l r = .ok true
  le_iff : ∀ l r, (apply .le l r).isOk →
    (apply .le l r = .ok true ↔ apply .lt l r = .ok true ∨ apply .eq l r = .ok true)
  ge_iff : ∀ l r, (apply .ge l r).isOk →
    (apply .ge l r = .ok true ↔ apply .gt l r = .ok true ∨ apply .eq l r = .ok true)
  turned : ∀ l r, apply .lt l r = .ok true ↔ apply .gt r l = .ok true
  refl : ∀ l, apply .eq l l = .ok true
  symm : ∀ l r, apply .eq l r = .ok true → apply .eq r l = .ok true
  trans : ∀ l m r, apply .eq l m = .ok true → apply .eq m r = .ok true → apply .eq l r = .ok true
  lt_trans : ∀ l m r, apply .lt l m = .ok true → apply .lt m r = .ok true → apply .lt l r = .ok true

theorem comparable_of_isOk {op : Comparison} (hOp : op ∈ orderings) (h : (op.apply l r).isOk) :
    l.Comparable r := by
  by_contra hNot
  rw [(apply_of_not_comparable hNot).2.2 op hOp] at h
  exact Bool.false_ne_true h

/-- The comparisons of terms are coherent. -/
theorem apply_coherent : Coherent apply where
  negation l r := by
    by_cases h : l.Comparable r
    · refine ⟨cmpOnScale l r == .eq, apply_of_comparable .eq h, ?_⟩
      rw [apply_of_comparable .ne h]
      rfl
    · have hApart := apply_of_not_comparable h
      exact ⟨decide (l = r), hApart.1, hApart.2.1⟩
  together l r := by
    by_cases h : l.Comparable r
    · refine .inl fun op _ => ?_
      rw [apply_of_comparable op h, apply_of_comparable op h.symm]
      exact ⟨rfl, rfl⟩
    · exact .inr fun op hOp => ⟨(apply_of_not_comparable h).2.2 op hOp,
        (apply_of_not_comparable fun hTurned => h hTurned.symm).2.2 op hOp⟩
  trichotomy l r hOk := by
    have h := comparable_of_isOk (by decide) hOk
    simp only [apply_of_comparable _ h, Except.ok.injEq]
    exact existsUnique_accepts _
  le_iff l r hOk := by
    have h := comparable_of_isOk (by decide) hOk
    simp only [apply_of_comparable _ h, Except.ok.injEq]
    cases cmpOnScale l r <;> decide
  ge_iff l r hOk := by
    have h := comparable_of_isOk (by decide) hOk
    simp only [apply_of_comparable _ h, Except.ok.injEq]
    cases cmpOnScale l r <;> decide
  turned l r := by
    rw [lt_holds_iff, gt_holds_iff, comparable_comm, Std.OrientedCmp.gt_iff_lt]
  refl l := eq_holds_iff.mpr (.inl rfl)
  symm l r h := by
    rw [eq_holds_iff] at h ⊢
    exact h.imp Eq.symm fun ⟨hSame, hCmp⟩ => ⟨hSame.symm, Std.OrientedCmp.eq_symm hCmp⟩
  trans l m r hLeft hRight := by
    rw [eq_holds_iff] at hLeft hRight ⊢
    rcases hLeft with rfl | ⟨hLeft, hCmpLeft⟩
    · exact hRight
    · rcases hRight with rfl | ⟨hRight, hCmpRight⟩
      · exact .inr ⟨hLeft, hCmpLeft⟩
      · exact .inr ⟨hLeft.trans hRight, Std.TransCmp.eq_trans hCmpLeft hCmpRight⟩
  lt_trans l m r hLeft hRight := by
    rw [lt_holds_iff] at hLeft hRight ⊢
    exact ⟨hLeft.1.trans hRight.1, Std.TransCmp.lt_trans hLeft.2 hRight.2⟩

end Comparison

end SolutionFlow
