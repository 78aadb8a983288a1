import SolutionFlow.Solution.Merge

/-! Merging solutions. Solutions with `merge?` form a partial monoid: it is commutative, associative as
far as it is defined, and has the empty solution as its unit. `assign?` is the same operation on rows
that bind something. -/
namespace SolutionFlow.Solution

variable {a b c m : Solution}

theorem merge?_eq_some_iff : a.merge? b = some m ↔ a.compatible b = true ∧ m = a.union b := by
  rw [merge?_eq_union, Option.ite_none_right_eq_some, Option.some.injEq, eq_comm (a := m)]

theorem merge?_eq_none_iff : a.merge? b = none ↔ a.compatible b = false := by
  cases h : a.compatible b <;> simp [merge?_eq_union, h]

theorem get?_of_merge? (h : a.merge? b = some m) (name : String) :
    m.get? name = (a.get? name).or (b.get? name) := by
  rw [(merge?_eq_some_iff.mp h).2, get?_union]

/-- A merge keeps what either of its parts binds. -/
theorem get?_of_merge?_left (h : a.merge? b = some m) {name : String} {x : Term}
    (hA : a.get? name = some x) : m.get? name = some x := by
  rw [get?_of_merge? h, hA, Option.some_or]

theorem get?_of_merge?_right (h : a.merge? b = some m) {name : String} {x : Term}
    (hB : b.get? name = some x) : m.get? name = some x := by
  rw [get?_of_merge? h, hB]
  cases hA : a.get? name with
  | none => rfl
  | some y =>
      obtain rfl := compatible_iff.mp (merge?_eq_some_iff.mp h).1 name y x hA hB
      rfl

/-- A merge binds nothing else. -/
theorem binds_of_merge? (h : a.merge? b = some m) (name : String) :
    m.binds name = (a.binds name || b.binds name) := by
  rw [binds, get?_of_merge? h, Option.isSome_or]
  rfl

theorem compatible_comm (a b : Solution) : a.compatible b = b.compatible a := by
  rw [Bool.eq_iff_iff, compatible_iff, compatible_iff]
  constructor
  · exact fun h name x y hB hA => (h name y x hA hB).symm
  · exact fun h name x y hA hB => (h name y x hB hA).symm

/-- Compatible solutions have the same union in both orders. -/
theorem union_comm (h : a.compatible b = true) : a.union b = b.union a := by
  refine ext_get? fun name => ?_
  rw [get?_union, get?_union]
  cases hA : a.get? name with
  | none => rw [Option.none_or, Option.or_none]
  | some x =>
      cases hB : b.get? name with
      | none => rfl
      | some y =>
          obtain rfl := compatible_iff.mp h name x y hA hB
          rfl

theorem merge?_comm (a b : Solution) : a.merge? b = b.merge? a := by
  rw [merge?_eq_union, merge?_eq_union, compatible_comm b a]
  split
  next h => rw [union_comm h]
  next => rfl

theorem union_assoc (a b c : Solution) : (a.union b).union c = a.union (b.union c) := by
  refine ext_get? fun name => ?_
  simp only [get?_union, Option.or_assoc]

/-- What is compatible with both parts is compatible with their union. -/
theorem compatible_union (h : a.compatible b = true) :
    (a.union b).compatible c = (a.compatible c && b.compatible c) := by
  rw [Bool.eq_iff_iff, Bool.and_eq_true, compatible_iff, compatible_iff, compatible_iff]
  constructor
  · refine fun hUnion => ⟨fun name x y hA hC => hUnion name x y ?_ hC, fun name x y hB hC =>
      hUnion name x y ?_ hC⟩
    · rw [get?_union, hA, Option.some_or]
    · rw [union_comm h, get?_union, hB, Option.some_or]
  · rintro ⟨hAC, hBC⟩ name x y hUnion hC
    rw [get?_union] at hUnion
    cases hA : a.get? name with
    | none => exact hBC name x y (by simpa [hA] using hUnion) hC
    | some z => exact hAC name x y (by simpa [hA] using hUnion) hC

/-- Two solutions are compatible if both are so with one that binds all that they have in common. -/
theorem compatible_trans (hAB : a.compatible b = true) (hBC : b.compatible c = true)
    (h : ∀ name, a.binds name = true → c.binds name = true → b.binds name = true) :
    a.compatible c = true := by
  rw [compatible_iff]
  intro name x y hA hC
  obtain ⟨z, hB⟩ := Option.isSome_iff_exists.mp (h name (by simp [binds, hA]) (by simp [binds, hC]))
  calc x = z := compatible_iff.mp hAB name x z hA hB
    _ = y := compatible_iff.mp hBC name z y hB hC

/-- Three solutions are merged in either way if they are compatible in pairs. -/
theorem merge?_assoc (a b c : Solution) :
    ((a.merge? b).bind fun m => m.merge? c) = (b.merge? c).bind fun m => a.merge? m := by
  cases hAB : a.compatible b with
  | false =>
      have hLeft : a.merge? b = none := merge?_eq_none_iff.mpr hAB
      rw [hLeft, Option.bind_none]
      cases hRight : b.merge? c with
      | none => rfl
      | some m =>
          obtain ⟨hBC, rfl⟩ := merge?_eq_some_iff.mp hRight
          rw [Option.bind_some, eq_comm, merge?_eq_none_iff, compatible_comm, compatible_union hBC,
            compatible_comm b a, hAB, Bool.false_and]
  | true =>
      have hLeft : a.merge? b = some (a.union b) := merge?_eq_some_iff.mpr ⟨hAB, rfl⟩
      rw [hLeft, Option.bind_some, merge?_eq_union, compatible_union hAB]
      cases hBC : b.compatible c with
      | false => rw [merge?_eq_none_iff.mpr hBC, Bool.and_false, if_neg Bool.false_ne_true]; rfl
      | true =>
          rw [merge?_eq_some_iff.mpr ⟨hBC, rfl⟩, Option.bind_some, merge?_eq_union, compatible_comm a,
            compatible_comm a, compatible_union hBC, compatible_comm b a, hAB, union_assoc,
            Bool.and_true, Bool.true_and]

theorem empty_merge? (a : Solution) : empty.merge? a = some a := by
  refine merge?_eq_some_iff.mpr ⟨rfl, ext_get? fun name => ?_⟩
  rw [get?_union, get?_empty, Option.none_or]

theorem merge?_empty (a : Solution) : a.merge? empty = some a := by
  rw [merge?_comm, empty_merge?]

/-- An empty solution is the empty one. -/
theorem eq_empty_of_isEmpty (h : a.isEmpty = true) : a = empty := by
  apply ext_get?
  intro name
  rw [get?_of_isEmpty h, get?_empty]

/-- Without names to leave out, all of a solution is left. -/
theorem without_nil (s : Solution) : s.without [] = s := by
  refine ext_get? fun name => ?_
  rw [without, get?_filterNames]
  rfl

/-- A solution is made of its part on some names and its part off them. -/
theorem restrict_merge?_without (s : Solution) (names : List String) :
    (s.restrict names).merge? (s.without names) = some s := by
  rw [merge?_eq_some_iff]
  constructor
  · rw [compatible_iff]
    intro name x y hOn hOff
    rw [restrict, get?_filterNames, Option.ite_none_right_eq_some] at hOn
    rw [without, get?_filterNames, hOn.1] at hOff
    simp at hOff
  · refine ext_get? fun name => ?_
    rw [get?_union, restrict, without, get?_filterNames, get?_filterNames]
    cases names.contains name <;> simp

/-- An assignment succeeds if no entry is in conflict with the seed. -/
theorem isSome_assignEntries (seed current : Solution) (entries : List (String × Term)) :
    (assignEntries seed (some current) entries).isSome =
      entries.all fun e =>
        match seed.get? e.1 with
        | none => true
        | some value => decide (value = e.2) := by
  induction entries generalizing current with
  | nil => rfl
  | cons e rest ih =>
      rw [assignEntries, List.all_cons]
      cases hSeed : seed.get? e.1 with
      | none => exact ih _
      | some value =>
          by_cases hSame : value = e.2
          · simpa [hSame] using ih current
          · simp [hSame]

/-- It takes what the seed does not bind. -/
theorem get?_of_assignEntries {seed current : Solution} {entries : List (String × Term)}
    (hSorted : entries.Pairwise fun x y => x.1 < y.1)
    (h : assignEntries seed (some current) entries = some m) (name : String) :
    m.get? name = if seed.binds name then current.get? name
      else (entries.lookup name).or (current.get? name) := by
  induction entries generalizing current with
  | nil =>
      rw [← Option.some.inj h]
      simp
  | cons e rest ih =>
      obtain ⟨hHead, hRest⟩ := List.pairwise_cons.mp hSorted
      rw [assignEntries] at h
      cases hSeed : seed.get? e.1 with
      | some value =>
          simp only [hSeed, Option.getD_some, Option.ite_none_right_eq_some] at h
          rw [ih hRest h.2]
          by_cases hName : name = e.1
          · simp [hName, binds, hSeed]
          · have hBeq : (name == e.1) = false := by simpa using hName
            rw [List.lookup_cons, hBeq]
      | none =>
          simp only [hSeed, Option.getD_some] at h
          rw [ih hRest h, get?_insert]
          by_cases hName : name = e.1
          · have hOnce : rest.lookup e.1 = none := by
              rw [Option.eq_none_iff_forall_ne_some]
              intro value hLookup
              have hMem := (lookup_eq_some_iff hRest).mp hLookup
              exact String.lt_irrefl e.1 (hHead (e.1, value) hMem)
            have hSelf : (e :: rest).lookup e.1 = some e.2 := List.lookup_cons_self
            simp [hName, binds, hSeed, hOnce, hSelf]
          · have hBeq : (name == e.1) = false := by simpa using hName
            rw [List.lookup_cons, hBeq, if_neg hName]

/-- On a row that binds something an assignment is a merge. -/
theorem assign?_eq_merge? (seed : Solution) {row : Solution} (hRow : row.isEmpty = false) :
    seed.assign? row = seed.merge? row := by
  rw [assign?_eq_ite, hRow, if_neg Bool.false_ne_true]
  have hSome : (assignEntries seed (some seed) row.entries).isSome = seed.compatible row := by
    rw [isSome_assignEntries, Bool.eq_iff_iff, compatible_comm, compatible_iff, ← agreesWith_iff]
    exact Iff.rfl
  cases hAssign : assignEntries seed (some seed) row.entries with
  | none =>
      rw [hAssign, Option.isSome_none] at hSome
      rw [eq_comm, merge?_eq_none_iff, ← hSome]
  | some m =>
      rw [hAssign, Option.isSome_some] at hSome
      rw [eq_comm, merge?_eq_some_iff]
      refine ⟨hSome.symm, ext_get? fun name => ?_⟩
      rw [get?_of_assignEntries row.sorted hAssign, get?_union]
      cases hSeed : seed.get? name with
      | none =>
          have hBinds : seed.binds name = false := by simp [binds, hSeed]
          rw [hBinds, if_neg Bool.false_ne_true, Option.or_none, Option.none_or]
          rfl
      | some value => simp [binds, hSeed]

/-- An assignment gives nothing else than a merge. -/
theorem merge?_of_assign? {seed row : Solution} (h : seed.assign? row = some m) :
    seed.merge? row = some m := by
  cases hRow : row.isEmpty with
  | true =>
      rw [assign?_eq_ite, hRow, if_pos rfl] at h
      cases h
  | false => rwa [← assign?_eq_merge? seed hRow]

end SolutionFlow.Solution
