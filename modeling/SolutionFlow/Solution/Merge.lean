import SolutionFlow.Solution.Basic

/-!
How solutions combine. Two solutions are compatible if no name is bound differently by both, and
then `merge?` is their union. `assign?` is the same operation as an inline table uses it, entry by
entry and without rows that bind nothing.
-/

namespace SolutionFlow.Solution

/-- Whether no entry of the first solution is in conflict with the second one. -/
def agreesWith (a b : Solution) : Bool :=
  a.entries.all fun e =>
    match b.get? e.1 with
    | none => true
    | some value => decide (value = e.2)

theorem agreesWith_iff {a b : Solution} :
    a.agreesWith b ↔
      ∀ name x y, a.get? name = some x → b.get? name = some y → x = y := by
  simp only [agreesWith, List.all_eq_true]
  constructor
  · intro h name x y hA hB
    have hEntry := h (name, x) (get?_eq_some_iff.mp hA)
    simp only [hB, decide_eq_true_eq] at hEntry
    exact hEntry.symm
  · intro h e hMem
    cases hB : b.get? e.1 with
    | none => rfl
    | some y => simpa using (h e.1 e.2 y (get?_eq_some_iff.mpr hMem) hB).symm

/-- Whether two solutions agree on every name that both of them bind. Only the entries of the one
that has fewer of them are looked at. -/
def compatible (a b : Solution) : Bool :=
  if a.size ≤ b.size then a.agreesWith b else b.agreesWith a

theorem compatible_iff {a b : Solution} :
    a.compatible b ↔
      ∀ name x y, a.get? name = some x → b.get? name = some y → x = y := by
  rw [compatible]
  split
  next => exact agreesWith_iff
  next =>
    rw [agreesWith_iff]
    constructor
    · exact fun h name x y hA hB => (h name y x hB hA).symm
    · exact fun h name y x hB hA => (h name x y hA hB).symm

/-- Whether some name is bound by both solutions. -/
def sharesName (a b : Solution) : Bool := a.entries.any fun e => b.binds e.1

theorem sharesName_iff {a b : Solution} :
    a.sharesName b ↔ ∃ name, a.binds name ∧ b.binds name := by
  simp only [sharesName, List.any_eq_true, binds, Option.isSome_iff_exists]
  constructor
  · rintro ⟨⟨name, x⟩, hMem, hB⟩
    exact ⟨name, ⟨x, get?_eq_some_iff.mpr hMem⟩, hB⟩
  · rintro ⟨name, ⟨x, hA⟩, hB⟩
    exact ⟨(name, x), get?_eq_some_iff.mp hA, hB⟩

/-- The bindings of both solutions; where both bind a name, those of the first. -/
def union (a b : Solution) : Solution :=
  b.entries.foldl (fun s e => if s.binds e.1 then s else s.insert e.1 e.2) a

theorem get?_foldl_vacant (entries : List (String × Term)) (a : Solution) (name : String) :
    (entries.foldl (fun s e => if s.binds e.1 then s else s.insert e.1 e.2) a).get? name =
      (a.get? name).or (entries.lookup name) := by
  induction entries generalizing a with
  | nil => rw [List.lookup_nil, Option.or_none]; rfl
  | cons e rest ih =>
    obtain ⟨n, v⟩ := e
    rw [List.foldl_cons, ih]
    by_cases hName : name = n
    · subst hName
      cases hA : a.get? name with
      | none => simp [binds, hA]
      | some x => simp [binds, hA]
    · have hBeq : (name == n) = false := by simpa using hName
      rw [List.lookup_cons, hBeq]
      split
      · rfl
      · rw [get?_insert, if_neg hName]

@[simp]
theorem get?_union (a b : Solution) (name : String) :
    (a.union b).get? name = (a.get? name).or (b.get? name) :=
  get?_foldl_vacant b.entries a name

/-- An empty solution binds nothing. -/
theorem get?_of_isEmpty {s : Solution} (h : s.isEmpty = true) (name : String) :
    s.get? name = none := by
  rw [get?, List.isEmpty_iff.mp h, List.lookup_nil]

/-- The union of two compatible solutions: the other one, if one of them is empty. -/
def merge? (a b : Solution) : Option Solution :=
  if a.compatible b then
    some (if b.isEmpty then a else if a.isEmpty then b else a.union b)
  else none

theorem merge?_eq_union (a b : Solution) :
    a.merge? b = if a.compatible b then some (a.union b) else none := by
  have hUnion : (if b.isEmpty then a else if a.isEmpty then b else a.union b) = a.union b := by
    split
    next hB =>
      apply ext_get?
      intro name
      rw [get?_union, get?_of_isEmpty hB, Option.or_none]
    next =>
      split
      next hA =>
        apply ext_get?
        intro name
        rw [get?_union, get?_of_isEmpty hA, Option.none_or]
      next => rfl
  rw [merge?, hUnion]

/-- Adds the entries of a row to the result so far, unless `seed` binds one of their names
differently. There is no result until the first entry; then it begins as the seed. -/
def assignEntries (seed : Solution) : Option Solution → List (String × Term) → Option Solution
  | result, [] => result
  | result, e :: rest =>
    let current := result.getD seed
    match seed.get? e.1 with
    | some value => if value = e.2 then assignEntries seed (some current) rest else none
    | none => assignEntries seed (some (current.insert e.1 e.2)) rest

/-- One row of an inline table, seen from `seed`: a row in conflict with it is dropped, and so is a
row without any entry. -/
def assign? (seed row : Solution) : Option Solution := assignEntries seed none row.entries

/-- Once there is an entry, the result might as well begin as the seed. -/
theorem assign?_eq_ite (seed row : Solution) :
    seed.assign? row =
      if row.isEmpty then none else assignEntries seed (some seed) row.entries := by
  rw [assign?, isEmpty]
  cases row.entries with
  | nil => rfl
  | cons e rest => rfl

end SolutionFlow.Solution
