import SolutionFlow.Proofs.Expression.Results

/-! The names that rows bind. A row that is computed from a seed or from another row binds what that binds,
and besides only the names that it is computed for. -/
namespace SolutionFlow

namespace Solution

variable {a b c : Solution} {names more : List String}

theorem binds_insert (s : Solution) (name : String) (value : Term) (other : String) :
    (s.insert name value).binds other = true ↔ other = name ∨ s.binds other = true := by
  by_cases hName : other = name <;> simp [binds, hName]

/-- A row binds nothing but the given names and those that the seed binds. -/
def AddsOnly (seed : Solution) (names : List String) (row : Solution) : Prop :=
  ∀ name, row.binds name = true → name ∈ names ∨ seed.binds name = true

theorem addsOnly_refl (seed : Solution) (names : List String) : seed.AddsOnly names seed :=
  fun _ => .inr

theorem addsOnly_empty (seed : Solution) (names : List String) : seed.AddsOnly names .empty :=
  fun _ hBinds => absurd hBinds Bool.false_ne_true

theorem AddsOnly.mono (h : a.AddsOnly names b) (hSub : ∀ name ∈ names, name ∈ more) :
    a.AddsOnly more b :=
  fun name hBinds => (h name hBinds).imp_left (hSub name)

theorem AddsOnly.trans (h : a.AddsOnly names b) (hNext : b.AddsOnly more c) :
    a.AddsOnly (names ++ more) c := by
  intro name hBinds
  rw [List.mem_append, or_assoc, or_left_comm]
  exact (hNext name hBinds).imp_right (h name)

theorem AddsOnly.inter (h : a.AddsOnly names b) (hOther : a.AddsOnly more b) :
    a.AddsOnly (names.filter fun name => more.contains name) b := by
  intro name hBinds
  rw [List.mem_filter, List.contains_iff_mem, and_or_right]
  exact ⟨h name hBinds, hOther name hBinds⟩

theorem AddsOnly.insert (h : a.AddsOnly names b) {name : String} (hName : name ∈ names)
    (value : Term) : a.AddsOnly names (b.insert name value) := by
  intro other hBinds
  rcases (binds_insert b name value other).mp hBinds with rfl | hOld
  · exact .inl hName
  · exact h other hOld

/-- A name that is looked up as before is bound as before. -/
theorem addsOnly_of_get? (h : ∀ name ∉ names, b.get? name = a.get? name) : a.AddsOnly names b := by
  intro name hBinds
  by_cases hMem : name ∈ names
  · exact .inl hMem
  · exact .inr (by rwa [binds, ← h name hMem])

theorem binds_of_without {name : String} (h : (a.without names).binds name = true) :
    a.binds name = true := by
  rw [binds, without, get?_filterNames] at h
  split at h
  · exact h
  · cases h

end Solution

/-- A projection binds its targets over what it starts from. -/
theorem Projection.addsOnly_collect {value : Rename → Option Term} {seed start : Solution}
    {list : List Rename} {names : List String} (hStart : seed.AddsOnly names start)
    (hTargets : ∀ name ∈ targets list, name ∈ names) :
    seed.AddsOnly names (collect value start list) := by
  refine List.foldlRecOn list _ hStart fun row hRow rename hMem => ?_
  cases hValue : value rename with
  | none => simpa only [hValue] using hRow
  | some term => exact hRow.insert (hTargets _ (List.mem_map_of_mem hMem)) term

/-- Computed bindings are those of the elements. -/
theorem Extending.addsOnly_of_extend {around : Surroundings} {row extended : Solution}
    {elements : List (String × Expr)} {clock : Clock}
    (h : ((extend around row elements).run clock).1 = .ok extended) :
    row.AddsOnly (elements.map (·.1)) extended := by
  refine Solution.addsOnly_of_get? fun name hNot => get?_of_extend h (mt ?_ hNot)
  exact fun hMem => List.map_subset _ List.filter_sublist.subset hMem

/-- What is put back into a row are names of the seed. -/
theorem Correcting.addsOnly_of_correct? {seed row corrected : Solution} {held names : List String}
    (h : (seed.without held).AddsOnly names row)
    (hCorrect : (⟨seed, held⟩ : Correcting).correct? row = some corrected) :
    seed.AddsOnly names corrected := by
  rw [Correcting.correct?_eq, Option.ite_none_right_eq_some] at hCorrect
  obtain ⟨-, hRow⟩ := hCorrect
  intro name hBinds
  rw [← Option.some.inj hRow, Solution.binds, Solution.get?_union, Option.isSome_or,
    Bool.or_eq_true] at hBinds
  rcases hBinds with hOld | hPut
  · exact (h name hOld).imp_right Solution.binds_of_without
  · rw [Solution.restrict, Solution.get?_filterNames] at hPut
    split at hPut
    · exact .inr hPut
    · cases hPut

namespace Grouping

variable {g : Grouping} {around : Surroundings} {seed : Solution} {clock : Clock}

theorem addsOnly_bindKey (g : Grouping) (seed : Solution) (key : GroupKey) :
    seed.AddsOnly g.names (g.bindKey seed key) := by
  refine List.foldlRecOn (g.names.zip key) _ (Solution.addsOnly_refl seed g.names)
    fun row hRow entry hMem => ?_
  cases hValue : entry.2 with
  | none => simpa only [hValue] using hRow
  | some term => exact hRow.insert (List.of_mem_zip hMem).1 term

/-- A group binds its key and its aggregates over the seed. -/
theorem addsOnly_of_eval {input : List Item} {rows : List Solution}
    (h : ((g.eval around seed input).run clock).1 = .ok rows) {row : Solution} (hRow : row ∈ rows) :
    seed.AddsOnly (g.names ++ g.elements.map (·.1)) row := by
  obtain ⟨found, later, -, hGroups⟩ := Timed.ok_of_bind h
  obtain ⟨group, -, now, hNow⟩ := Timed.mem_of_mapM hGroups row hRow
  exact (addsOnly_bindKey g seed group.1).trans
    (Solution.addsOnly_of_get? fun _ => get?_of_bindAggregates hNow)

end Grouping

end SolutionFlow
