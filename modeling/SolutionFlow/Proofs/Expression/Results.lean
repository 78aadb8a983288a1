import SolutionFlow.Algebra.Projection
import SolutionFlow.Expression.Grouping
import SolutionFlow.Flow.Operator.Rows

/-! Rows that are computed from others: projections, computed bindings, corrections and groups. Each of them
binds some names anew, and what it does not name stays as it was. -/
namespace SolutionFlow

namespace Timed

variable {ε α β : Type} {f : α → ExceptT ε Timed β} {clock : Clock}

/-- A computation in time that succeeds has succeeded in its first part, and then in the rest. -/
theorem ok_of_bind {x : ExceptT ε Timed α} {b : β} (h : ((x >>= f).run clock).1 = .ok b) :
    ∃ a later, (x.run clock).1 = .ok a ∧ ((f a).run later).1 = .ok b := by
  change (ExceptT.bindCont f (x.run clock).1 (x.run clock).2).1 = .ok b at h
  cases hFirst : (x.run clock).1 with
  | error e =>
      rw [hFirst] at h
      cases h
  | ok a =>
      rw [hFirst] at h
      exact ⟨a, (x.run clock).2, rfl, h⟩

theorem mem_of_mapM {items : List α} {results : List β}
    (h : ((items.mapM f).run clock).1 = .ok results) :
    ∀ b ∈ results, ∃ a ∈ items, ∃ later, ((f a).run later).1 = .ok b := by
  induction items generalizing clock results with
  | nil =>
      rw [List.mapM_nil] at h
      obtain rfl : [] = results := Except.ok.inj h
      simp
  | cons item rest ih =>
      rw [List.mapM_cons] at h
      obtain ⟨first, later, hFirst, hRest⟩ := ok_of_bind h
      obtain ⟨others, last, hOthers, hAll⟩ := ok_of_bind hRest
      obtain rfl : first :: others = results := Except.ok.inj hAll
      intro b hMem
      rcases List.mem_cons.mp hMem with rfl | hOther
      · exact ⟨item, List.mem_cons_self, clock, hFirst⟩
      · obtain ⟨a, hA, now, hNow⟩ := ih hOthers b hOther
        exact ⟨a, List.mem_cons_of_mem _ hA, now, hNow⟩

end Timed
namespace Projection

/-- A name keeps its value if all that is put in its place is the same value again. -/
theorem get?_collect {value : Rename → Option Term} {start : Solution} {list : List Rename}
    {name : String} {term : Term} (hStart : start.get? name = some term)
    (hList : ∀ rename ∈ list, rename.target = name → ∀ other, value rename = some other →
      other = term) : (collect value start list).get? name = some term := by
  unfold collect
  induction list generalizing start with
  | nil => exact hStart
  | cons rename rest ih =>
      obtain ⟨hFirst, hRest⟩ := List.forall_mem_cons.mp hList
      refine ih ?_ hRest
      cases hValue : value rename with
      | none => simpa only [hValue] using hStart
      | some other =>
          simp only [hValue, Solution.get?_insert]
          split
          next hName => rw [hFirst hName.symm other hValue]
          next => exact hStart

end Projection

namespace Extending

/-- The names that are bound anew. -/
def targets (elements : List (String × Expr)) : List String :=
  (elements.filter fun element => !element.2.isAggregate).map (·.1)

theorem get?_of_extend {around : Surroundings} {row extended : Solution}
    {elements : List (String × Expr)} {clock : Clock}
    (h : ((extend around row elements).run clock).1 = .ok extended) {name : String}
    (hName : name ∉ targets elements) : extended.get? name = row.get? name := by
  induction elements generalizing row clock with
  | nil => rw [← Except.ok.inj h]
  | cons element rest ih =>
      obtain ⟨first, x⟩ := element
      rw [extend] at h
      split at h
      next hAggregate => exact ih h (by simpa [targets, hAggregate] using hName)
      next hPlain =>
        obtain ⟨hOther, hRest⟩ : ¬name = first ∧ name ∉ targets rest := by
          simpa [targets, hPlain] using hName
        obtain ⟨term, later, -, hLater⟩ := Timed.ok_of_bind h
        cases term with
        | none => exact ih hLater hRest
        | some term => rw [ih hLater hRest, Solution.get?_insert, if_neg hOther]

end Extending

namespace Correcting

/-- What a name of the corrected row is bound to. -/
theorem get?_foldl_insert (seed : Solution) (names : List String) (row : Solution) (name : String) :
    (names.foldl
      (fun row name =>
        match row.get? name, seed.get? name with
        | none, some term => row.insert name term
        | _, _ => row)
      row).get? name = (row.get? name).or (if name ∈ names then seed.get? name else none) := by
  induction names generalizing row with
  | nil => simp
  | cons first rest ih =>
      rw [List.foldl_cons, ih]
      cases hRow : row.get? first with
      | some term =>
          by_cases hName : name = first
          · simp [hName, hRow]
          · simp [hName]
      | none =>
          cases hSeed : seed.get? first with
          | none =>
              by_cases hName : name = first
              · simp [hName, hSeed, hRow]
              · simp [hName]
          | some term =>
              by_cases hName : name = first
              · simp [hName, hSeed, hRow]
              · simp [hName]

/-- The correction drops a row in conflict with the seed, and adds what is missing of the names to any
other row. -/
theorem correct?_eq (s : Correcting) (row : Solution) :
    s.correct? row =
      if s.seed.compatible row then some (row.union (s.seed.restrict s.names)) else none := by
  unfold correct?
  split
  · refine congrArg some (Solution.ext_get? fun name => ?_)
    refine (get?_foldl_insert s.seed s.names row name).trans ?_
    rw [Solution.get?_union, Solution.restrict, Solution.get?_filterNames]
    simp
  · rfl

end Correcting

namespace Grouping

variable {g : Grouping} {around : Surroundings} {seed : Solution} {clock : Clock}

theorem mem_of_addRow {key : GroupKey} {row : Solution} {groups : List (GroupKey × List Solution)}
    {group : GroupKey × List Solution} (h : group ∈ addRow key row groups) :
    group.1 = key ∨ ∃ other ∈ groups, group.1 = other.1 := by
  induction groups with
  | nil => exact .inl (by simp [List.mem_singleton.mp h])
  | cons first rest ih =>
      rw [addRow] at h
      split at h
      · rcases List.mem_cons.mp h with rfl | hRest
        · exact .inr ⟨first, List.mem_cons_self, rfl⟩
        · exact .inr ⟨group, List.mem_cons_of_mem _ hRest, rfl⟩
      · rcases List.mem_cons.mp h with rfl | hRest
        · exact .inr ⟨first, List.mem_cons_self, rfl⟩
        · exact (ih hRest).imp_right fun ⟨other, hMem, hEq⟩ =>
            ⟨other, List.mem_cons_of_mem _ hMem, hEq⟩

/-- The key of a group is that of one of its rows; only the group of no rows has none. -/
theorem key_of_mem_groups {rows : List Solution} {group : GroupKey × List Solution}
    (h : group ∈ g.groups rows) : group.1 = [] ∨ ∃ row ∈ rows, group.1 = g.key row := by
  have hFold : ∀ (rows : List Solution) (found : List (GroupKey × List Solution)),
      ∀ group ∈ rows.foldl (fun groups row => addRow (g.key row) row groups) found,
        (∃ other ∈ found, group.1 = other.1) ∨ ∃ row ∈ rows, group.1 = g.key row := by
    intro rows
    induction rows with
    | nil => exact fun found group hMem => .inl ⟨group, hMem, rfl⟩
    | cons row rest ih =>
        intro found group hMem
        rcases ih _ group hMem with ⟨other, hOther, hEq⟩ | ⟨later, hLater, hEq⟩
        · rcases mem_of_addRow hOther with hKey | ⟨old, hOld, hKey⟩
          · exact .inr ⟨row, List.mem_cons_self, hEq.trans hKey⟩
          · exact .inl ⟨old, hOld, hEq.trans hKey⟩
        · exact .inr ⟨later, List.mem_cons_of_mem _ hLater, hEq⟩
  unfold groups at h
  dsimp only at h
  split at h
  · exact .inl (by simp [List.mem_singleton.mp h])
  · exact .inr ((hFold rows [] group h).resolve_left (by simp))

/-- A name keeps the value of the seed under a key that has the same value for it. -/
theorem get?_bindKey {key : GroupKey} {name : String} {term : Term}
    (hSeed : seed.get? name = some term)
    (hKey : ∀ other, (name, some other) ∈ g.names.zip key → other = term) :
    (g.bindKey seed key).get? name = some term := by
  unfold bindKey
  generalize g.names.zip key = entries at hKey
  induction entries generalizing seed with
  | nil => exact hSeed
  | cons entry rest ih =>
      obtain ⟨first, value⟩ := entry
      refine ih ?_ fun other hMem => hKey other (List.mem_cons_of_mem _ hMem)
      cases value with
      | none => exact hSeed
      | some other =>
          rw [Solution.get?_insert]
          split
          next hName => rw [hKey other (by simp [hName])]
          next => exact hSeed

theorem get?_of_bindAggregates {rows : List Solution} {result : Solution}
    {elements : List (String × Aggregate)} {bound : Solution}
    (h : ((bindAggregates around rows result elements).run clock).1 = .ok bound) {name : String}
    (hName : name ∉ elements.map (·.1)) : bound.get? name = result.get? name := by
  induction elements generalizing result clock with
  | nil => rw [← Except.ok.inj h]
  | cons element rest ih =>
      obtain ⟨first, call⟩ := element
      obtain ⟨hOther, hRest⟩ : ¬name = first ∧ name ∉ rest.map (·.1) := by simpa using hName
      rw [bindAggregates] at h
      obtain ⟨term, later, -, hLater⟩ := Timed.ok_of_bind h
      cases term with
      | none => exact ih hLater hRest
      | some term => rw [ih hLater hRest, Solution.get?_insert, if_neg hOther]

/-- The rows that are grouped are those of the input. -/
theorem mem_of_collected {input : List Item} {found : List Solution}
    (h : input.mapM id = (.ok found : Except QueryError (List Solution))) {row : Solution}
    (hMem : row ∈ found) : .ok row ∈ input := by
  induction input generalizing found with
  | nil =>
      obtain rfl : [] = found := Except.ok.inj h
      exact absurd hMem List.not_mem_nil
  | cons item rest ih =>
      rw [List.mapM_cons] at h
      cases item with
      | error e => cases h
      | ok first =>
          cases hRest : (rest.mapM id : Except QueryError (List Solution)) with
          | error e =>
              rw [hRest] at h
              cases h
          | ok others =>
              rw [hRest] at h
              obtain rfl : first :: others = found := Except.ok.inj h
              rcases List.mem_cons.mp hMem with rfl | hOld
              · exact List.mem_cons_self
              · exact List.mem_cons_of_mem _ (ih hRest hOld)

/-- A name of the seed keeps its value in all groups, if no aggregate is bound to it and no row that is
grouped by it has another value. -/
theorem get?_of_eval {input : List Item} {rows : List Solution}
    (h : ((g.eval around seed input).run clock).1 = .ok rows) {row : Solution} (hRow : row ∈ rows)
    {name : String} {term : Term} (hSeed : seed.get? name = some term)
    (hName : name ∉ g.elements.map (·.1))
    (hInput : name ∈ g.names → ∀ row, .ok row ∈ input → row.get? name = some term) :
    row.get? name = some term := by
  obtain ⟨found, later, hFound, hGroups⟩ := Timed.ok_of_bind h
  obtain ⟨group, hGroup, now, hNow⟩ := Timed.mem_of_mapM hGroups row hRow
  rw [get?_of_bindAggregates hNow hName]
  refine get?_bindKey hSeed fun other hMem => ?_
  have hNamed : name ∈ g.names := (List.of_mem_zip hMem).1
  rcases key_of_mem_groups hGroup with hNone | ⟨source, hSource, hKey⟩
  · rw [hNone, List.zip_nil_right] at hMem
    exact absurd hMem List.not_mem_nil
  · rw [hKey, key, ← List.map_prod_left_eq_zip] at hMem
    obtain ⟨_, -, hEq⟩ := List.mem_map.mp hMem
    obtain ⟨rfl, hOther⟩ := Prod.mk.inj hEq
    have hBound := hInput hNamed source (mem_of_collected hFound hSource)
    exact Option.some.inj (hOther.symm.trans hBound)

end Grouping

end SolutionFlow
