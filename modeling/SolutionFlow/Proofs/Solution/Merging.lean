import Mathlib.Data.List.Basic
import Mathlib.Tactic.Push
import SolutionFlow.Flow.Leaf
import SolutionFlow.Proofs.Meaning.Compatibility

/-! The laws of merging. Compatible solutions have one union, which does not depend on their order or on how
they are put together; a solution can be taken apart by names and merged again. What an inline table gives
are merges with its rows. -/
namespace SolutionFlow

namespace Solution

variable {a b m : Solution}

/-- Solutions are incompatible if there is a name that they bind differently. -/
theorem compatible_eq_false_iff :
    a.compatible b = false ↔
      ∃ name x y, a.get? name = some x ∧ b.get? name = some y ∧ x ≠ y := by
  rw [← Bool.not_eq_true, compatible_iff]
  push Not
  rfl

theorem isSome_merge? (a b : Solution) : (a.merge? b).isSome = a.compatible b := by
  rw [merge?_eq_union]
  cases a.compatible b <;> rfl

/-- The union of compatible solutions has the bindings of both. -/
theorem get?_union_eq_some_iff (h : a.compatible b = true) {name : String} {x : Term} :
    (a.union b).get? name = some x ↔ a.get? name = some x ∨ b.get? name = some x := by
  have hMerge : a.merge? b = some (a.union b) := merge?_eq_some_iff.mpr ⟨h, rfl⟩
  constructor
  · intro hUnion
    rw [get?_union, Option.or_eq_some_iff] at hUnion
    exact hUnion.imp_right And.right
  · rintro (hA | hB)
    · exact get?_of_merge?_left hMerge hA
    · exact get?_of_merge?_right hMerge hB

/-- A merge is the solution with the bindings of both, of which there is only one. -/
theorem merge?_eq_some_iff_get? :
    a.merge? b = some m ↔ a.compatible b = true ∧
      ∀ name x, m.get? name = some x ↔ a.get? name = some x ∨ b.get? name = some x := by
  rw [merge?_eq_some_iff]
  apply and_congr_right
  intro h
  constructor
  · rintro rfl name x
    exact get?_union_eq_some_iff h
  · intro hBindings
    apply ext_get?
    intro name
    apply Option.ext
    intro x
    rw [hBindings, get?_union_eq_some_iff h]

theorem merge?_self (a : Solution) : a.merge? a = some a := by
  rw [merge?_eq_some_iff_get?, compatible_iff]
  constructor
  · intro name x y hX hY
    exact Option.some.inj (hX.symm.trans hY)
  · simp

theorem binds_restrict (s : Solution) (names : List String) (name : String) :
    (s.restrict names).binds name = (names.contains name && s.binds name) := by
  rw [binds, restrict, get?_filterNames]
  cases names.contains name <;> rfl

theorem binds_without (s : Solution) (names : List String) (name : String) :
    (s.without names).binds name = (!names.contains name && s.binds name) := by
  rw [binds, without, get?_filterNames]
  cases names.contains name <;> rfl

/-- An assignment differs from a merge only for the row that binds nothing. -/
theorem assign?_eq (seed row : Solution) :
    seed.assign? row = if row.isEmpty then none else seed.merge? row := by
  cases hRow : row.isEmpty with
  | true => rw [assign?_eq_ite, hRow, if_pos rfl, if_pos rfl]
  | false => rw [assign?_eq_merge? seed hRow, if_neg Bool.false_ne_true]

end Solution

/-- An inline table gives the merges of the seed with its rows. Rows that bind nothing are left out, unless
the seed binds nothing either. -/
theorem Leaf.inline_eq (rows : List Solution) (seed : Solution) :
    Leaf.inline rows seed = .ofRows
      ((if seed.isEmpty then rows else rows.filter fun row => !row.isEmpty).filterMap
        seed.merge?) := by
  rw [Leaf.inline]
  apply congrArg Call.ofRows
  split
  next hSeed =>
    have hMerge : Solution.empty.merge? = some := funext Solution.empty_merge?
    rw [Solution.eq_empty_of_isEmpty hSeed, hMerge, List.filterMap_some]
  next =>
    rw [List.filterMap_filter]
    apply List.filterMap_congr
    intro row _
    rw [Solution.assign?_eq]
    cases row.isEmpty <;> rfl

/-- Solutions under merging are a partial commutative monoid. Compatibility is symmetric, and fails only if
some name is bound differently by both. A merge is defined if the solutions are compatible, and is then
the one solution that has the bindings of both. Merging is commutative and idempotent, has the empty
solution as its unit, and is associative, also in where it is defined. The parts of a solution on some
names and off them are merged to the solution again. The entry-by-entry assignment of an inline table is
the merge with every row that binds something, from every seed, so that the table gives these merges. -/
theorem Solution.merge?_partial_monoid (a b c : Solution) (names : List String)
    (rows : List Solution) :
    (a.compatible b = b.compatible a ∧ (a.compatible b = false ↔
      ∃ name x y, a.get? name = some x ∧ b.get? name = some y ∧ x ≠ y)) ∧
    ((a.merge? b).isSome = a.compatible b ∧ ∀ m, a.merge? b = some m ↔
      a.compatible b = true ∧
        ∀ name x, m.get? name = some x ↔ a.get? name = some x ∨ b.get? name = some x) ∧
    (a.merge? b = b.merge? a ∧ a.merge? a = some a ∧ empty.merge? a = some a ∧
      a.merge? empty = some a) ∧
    (((a.merge? b).bind fun m => m.merge? c) = (b.merge? c).bind fun m => a.merge? m) ∧
    ((∀ name, (a.restrict names).binds name = (names.contains name && a.binds name) ∧
        (a.without names).binds name = (!names.contains name && a.binds name)) ∧
      (a.restrict names).merge? (a.without names) = some a) ∧
    (a.assign? b = if b.isEmpty then none else a.merge? b) ∧
    Leaf.inline rows a = .ofRows
      ((if a.isEmpty then rows else rows.filter fun row => !row.isEmpty).filterMap
        a.merge?) := by
  refine ⟨⟨compatible_comm a b, compatible_eq_false_iff⟩,
    ⟨isSome_merge? a b, fun _ => merge?_eq_some_iff_get?⟩,
    ⟨merge?_comm a b, merge?_self a, empty_merge? a, merge?_empty a⟩, merge?_assoc a b c,
    ⟨fun name => ?_, restrict_merge?_without a names⟩, assign?_eq a b, Leaf.inline_eq rows a⟩
  exact ⟨binds_restrict a names name, binds_without a names name⟩

end SolutionFlow
