import SolutionFlow.Proofs.Number.Order
import SolutionFlow.Term.Order

/-! The order of terms is one. Each comparison of two terms is one of places, part by part, so that terms
that a sort puts one behind the other stay so, whatever is put in between. -/
namespace SolutionFlow

namespace Term

/-- On which side of the whole numbers a term lies; only doubles can lie beyond them. -/
def side : Term → Nat
  | .double d => d.side
  | _ => 1

/-- The value of a number that lies among the whole numbers. -/
def units : Term → Int
  | .integer i => i.toInt * Double.unitsPerOne
  | .double d => d.finiteUnits
  | _ => 0

/-- The place of a number among those of equal value. -/
def numberRank : Term → Nat
  | .double _ => 1
  | _ => 0

def totalPlace : Term → Int
  | .double d => d.totalPlace
  | _ => 0

def flag : Term → Bool
  | .boolean value => value
  | _ => false

/-- The text of a term that is compared by its text. -/
def form : Term → String
  | .boolean _ | .integer _ | .double _ => ""
  | a => a.lexical

/-- The order of terms, part by part. -/
def cmpParts : Term → Term → Ordering :=
  compareLex (compareOn kindRank) <| compareLex (compareOn side) <| compareLex (compareOn units) <|
    compareLex (compareOn numberRank) <| compareLex (compareOn totalPlace) <|
    compareLex (compareOn flag) <| compareLex (compareOn form) <|
    compareLex (compareOn formRank) (compareOn tag)

theorem compare_units (a b : Int) :
    compare (a * (Double.unitsPerOne : Int)) (b * Double.unitsPerOne) = compare a b :=
  compare_of_strictMono (f := (· * (Double.unitsPerOne : Int)))
    (fun _ _ h => Int.mul_lt_mul_of_pos_right h (Int.natCast_pos.mpr Double.unitsPerOne_pos)) a b

/-- The places of the kinds decide, and terms of one kind are compared part by part. -/
theorem cmp_eq_cmpParts (a b : Term) : a.cmp b = a.cmpParts b := by
  have hBefore : compare 0 1 = Ordering.lt := rfl
  have hBehind : compare 1 0 = Ordering.gt := rfl
  by_cases hKind : a.kindRank = b.kindRank
  · cases a <;> cases b <;> simp [kindRank] at hKind
    all_goals
      simp only [cmp, cmpParts, cmpSameKind, compareLex, compareOn, kindRank, side, units, numberRank,
        totalPlace, flag, form, formRank, tag, compare_units, Double.totalCompare_eq,
        Double.compareWhole_eq, Std.compare_self, Ordering.eq_then, Ordering.then_eq, hBefore, hBehind,
        Ordering.then_assoc, Ordering.swap_then, Ordering.lt_then, Ordering.gt_then, Nat.compare_swap,
        Int.compare_swap]
  · have hDecided : compare a.kindRank b.kindRank ≠ .eq := fun h => hKind (compare_eq_iff_eq.mp h)
    cases h : compare a.kindRank b.kindRank <;>
      simp [cmp, cmpParts, compareLex, compareOn, h] at hDecided ⊢

instance : Std.TransOrd Term := by
  have hCmp : (compare : Term → Term → Ordering) = cmpParts := by
    funext a b
    exact cmp_eq_cmpParts a b
  rw [Std.TransOrd, hCmp]
  unfold cmpParts
  infer_instance

/-- Only equal terms have the same parts. -/
theorem eq_of_cmpParts {a b : Term} (h : a.cmpParts b = .eq) : a = b := by
  simp only [cmpParts, compareLex_eq_eq, compareOn, Std.LawfulEqCmp.compare_eq_iff_eq] at h
  obtain ⟨hKind, -, hUnits, hNumber, hPlace, hFlag, hForm, hFormRank, hTag⟩ := h
  cases a <;> cases b <;> simp [kindRank, numberRank, formRank] at hKind hNumber hFormRank
  case iri.iri => exact congrArg Term.iri hForm
  case blank.blank => exact congrArg Term.blank hForm
  case boolean.boolean => exact congrArg Term.boolean hFlag
  case integer.integer => 
    have hInt := Int.eq_of_mul_eq_mul_right (Int.natCast_pos.mpr Double.unitsPerOne_pos).ne' hUnits
    exact congrArg Term.integer (Int64.toInt_inj.mp hInt)
  case double.double => exact congrArg Term.double (Double.eq_of_totalPlace hPlace)
  case string.string => exact congrArg Term.string hForm
  case langString.langString => exact congrArg₂ Term.langString hForm hTag
  case typed.typed => exact congrArg₂ Term.typed hForm hTag

instance : Std.LawfulEqOrd Term where
  eq_of_compare h := eq_of_cmpParts ((cmp_eq_cmpParts _ _).symm.trans h)

instance : Std.TransCmp Term.cmp := inferInstanceAs (Std.TransOrd Term)

instance : Std.LawfulEqCmp Term.cmp := inferInstanceAs (Std.LawfulEqOrd Term)

end Term

end SolutionFlow
