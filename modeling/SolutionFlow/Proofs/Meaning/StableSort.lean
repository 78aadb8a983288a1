import SolutionFlow.Proofs.Meaning.Stable

/-! What it is to sort rows stably, said without a way of doing it: no row is lost or made up, no row is behind
one that it goes before, and rows with the same values stay in the order in which they came. The stable
order of the library is such a one. -/
namespace SolutionFlow

/-- Things have been put in order by their keys, and those with one key have stayed in order. -/
structure StableSort {α κ : Type} [DecidableEq κ] (key : α → κ) (Before : κ → κ → Prop)
    (given sorted : List α) : Prop where
  perm : sorted.Perm given
  ordered : sorted.Pairwise fun a b => ¬Before (key b) (key a)
  steady : ∀ k, (sorted.filter fun a => key a = k) = given.filter fun a => key a = k

namespace SortKey

/-- A value that goes before another one in ascending order. What is unbound goes before every term. -/
def Below : Option Term → Option Term → Prop
  | none, some _ => True
  | some a, some b => a.cmp b = .lt
  | _, none => False

def Earlier : Direction → Option Term → Option Term → Prop
  | .ascending, a, b => Below a b
  | .descending, a, b => Below b a

/-- Values of the same sort expressions are compared from left to right, each in its direction. -/
def EarlierValues : List (Direction × Option Term) → List (Direction × Option Term) → Prop :=
  List.Lex fun a b => Earlier a.1 a.2 b.2

theorem cmpOptional_lt_iff {a b : Option Term} : Term.cmpOptional a b = .lt ↔ Below a b := by
  cases a <;> cases b <;> simp [Term.cmpOptional, Below]

theorem cmpDirected_lt_iff {direction : Direction} {a b : Option Term} :
    cmpDirected direction a b = .lt ↔ Earlier direction a b := by
  cases direction with
  | ascending => exact cmpOptional_lt_iff
  | descending =>
      have hTurned : (Term.cmpOptional a b).swap = Term.cmpOptional b a := by
        rw [Term.cmpOptional_eq, Term.cmpOptional_eq, ← Std.OrientedOrd.eq_swap]
      rw [cmpDirected, hTurned, cmpOptional_lt_iff]
      rfl

theorem cmpDirected_eq_iff {direction : Direction} {a b : Option Term} :
    cmpDirected direction a b = .eq ↔ a = b := by
  cases direction <;> cases a <;> cases b <;>
    simp [cmpDirected, Term.cmpOptional, Std.LawfulEqCmp.compare_eq_iff_eq]

/-- The comparison of the values is the lexicographic one. -/
theorem cmpValues_lt_iff {as bs : List (Direction × Option Term)}
    (h : as.map Prod.fst = bs.map Prod.fst) : cmpValues as bs = .lt ↔ EarlierValues as bs := by
  induction as generalizing bs with
  | nil =>
      obtain rfl := List.map_eq_nil_iff.mp h.symm
      simp [cmpValues, EarlierValues]
  | cons a as ih =>
      obtain ⟨b, bs, rfl, hSame, hRest⟩ := List.map_eq_cons_iff.mp h.symm
      rw [cmpValues, Ordering.then_eq_lt, cmpDirected_lt_iff, cmpDirected_eq_iff, ih hRest.symm]
      constructor
      · rintro (hEarlier | ⟨hValue, hLater⟩)
        · exact .rel hEarlier
        · obtain rfl : a = b := Prod.ext hSame.symm hValue
          exact .cons hLater
      · rintro (_ | hEarlier | hLater)
        · exact .inl hEarlier
        · exact .inr ⟨rfl, hLater⟩

end SortKey

namespace Sorting

variable {directions : List Direction} {entries : List Valued}

/-- The stable order of rows is a stable sort of them. -/
theorem Directed.stableSort (h : Directed directions entries) :
    StableSort Prod.fst SortKey.EarlierValues entries (entries.mergeSort before) := by
  have hPerm := List.mergeSort_perm entries before
  have hSorted : (entries.mergeSort before).Pairwise fun a b => beforeIn directions a b = true := by
    rw [h.mergeSort_eq]
    exact List.pairwise_mergeSort beforeIn_trans beforeIn_total entries
  refine ⟨hPerm, ?_, fun k => ?_⟩
  · refine hSorted.imp_of_mem fun {a b} hA hB hBefore hEarlier => ?_
    have hDirA := h a (hPerm.mem_iff.mp hA)
    have hDirB := h b (hPerm.mem_iff.mp hB)
    rw [← SortKey.cmpValues_lt_iff (hDirB.trans hDirA.symm), SortKey.cmpValues_eq hDirB hDirA] at hEarlier
    rw [beforeIn_swap b a, hEarlier] at hBefore
    exact Bool.false_ne_true hBefore
  · rw [h.mergeSort_eq, filter_mergeSort beforeIn_trans beforeIn_total]
    refine List.mergeSort_of_pairwise (List.pairwise_of_forall_mem_list fun a hA b hB => ?_)
    have hKeyA : a.1 = k := by simpa using (List.mem_filter.mp hA).2
    have hKeyB : b.1 = k := by simpa using (List.mem_filter.mp hB).2
    have hSame : SortKey.cmpColumns directions (k.map Prod.snd) (k.map Prod.snd) = .eq :=
      Std.ReflCmp.compare_self
    rw [beforeIn, hKeyA, hKeyB, hSame]
    rfl

end Sorting

end SolutionFlow
