import SolutionFlow.Term.Order

/-!
Solutions: finite maps from variable names to terms.

The entries are kept in the order of their names, without repeats, so that two solutions are equal
exactly if they bind the same names to the same terms (`Solution.ext_get?`). `get?` is the view
through which the operations are described.
-/

namespace SolutionFlow

/-- A finite map from variable names to terms, with its entries in the order of the names. -/
structure Solution where
  entries : List (String × Term)
  sorted : entries.Pairwise fun a b => a.1 < b.1
deriving DecidableEq

namespace Solution

def empty : Solution := ⟨[], .nil⟩

instance : Inhabited Solution := ⟨empty⟩

instance : Hashable Solution := ⟨fun s => hash s.entries⟩

def size (s : Solution) : Nat := s.entries.length

def isEmpty (s : Solution) : Bool := s.entries.isEmpty

/-- The bound names, in order. -/
def names (s : Solution) : List String := s.entries.map (·.1)

def get? (s : Solution) (name : String) : Option Term := s.entries.lookup name

def binds (s : Solution) (name : String) : Bool := (s.get? name).isSome

/-- Puts an entry in its place among sorted ones, instead of one of the same name. -/
def insertEntry (name : String) (value : Term) : List (String × Term) → List (String × Term)
  | [] => [(name, value)]
  | entry :: rest =>
    if name < entry.1 then (name, value) :: entry :: rest
    else if name = entry.1 then (name, value) :: rest
    else entry :: insertEntry name value rest

theorem mem_insertEntry {name : String} {value : Term} {entries : List (String × Term)}
    {e : String × Term} (h : e ∈ insertEntry name value entries) :
    e = (name, value) ∨ e ∈ entries := by
  induction entries with
  | nil => simpa [insertEntry] using h
  | cons entry rest ih =>
    simp only [insertEntry] at h
    split at h
    · simpa using h
    · split at h
      · simp only [List.mem_cons] at h ⊢
        exact h.imp_right .inr
      · rcases List.mem_cons.mp h with h | h
        · exact .inr (by simp [h])
        · exact (ih h).imp_right (List.mem_cons_of_mem _)

theorem sorted_insertEntry (name : String) (value : Term) {entries : List (String × Term)}
    (h : entries.Pairwise fun a b => a.1 < b.1) :
    (insertEntry name value entries).Pairwise fun a b => a.1 < b.1 := by
  induction entries with
  | nil => simp [insertEntry]
  | cons entry rest ih =>
    rw [List.pairwise_cons] at h
    simp only [insertEntry]
    split
    · next hLt =>
      refine List.pairwise_cons.mpr ⟨fun e he => ?_, List.pairwise_cons.mpr h⟩
      rcases List.mem_cons.mp he with rfl | he
      · exact hLt
      · exact String.lt_trans hLt (h.1 e he)
    · next hNotLt =>
      split
      · next hEq => exact List.pairwise_cons.mpr ⟨fun e he => hEq ▸ h.1 e he, h.2⟩
      · next hNe =>
        refine List.pairwise_cons.mpr ⟨fun e he => ?_, ih h.2⟩
        rcases mem_insertEntry he with rfl | he
        · rcases String.le_total name entry.1 with hLe | hLe
          · exact absurd (Std.lt_of_le_of_ne hLe hNe) hNotLt
          · exact Std.lt_of_le_of_ne hLe (Ne.symm hNe)
        · exact h.1 e he

/-- The same solution with `name` bound to `value`, whatever it was bound to before. -/
def insert (s : Solution) (name : String) (value : Term) : Solution :=
  ⟨insertEntry name value s.entries, sorted_insertEntry name value s.sorted⟩

/-- The part of a solution on the names that `keep` accepts: the solution itself, if these are all of
its names. -/
def filterNames (s : Solution) (keep : String → Bool) : Solution :=
  if s.names.all keep then s else ⟨s.entries.filter fun e => keep e.1, s.sorted.filter _⟩

/-- The part of a solution on the given names. -/
def restrict (s : Solution) (names : List String) : Solution :=
  s.filterNames fun name => names.contains name

/-- The part of a solution off the given names. -/
def without (s : Solution) (names : List String) : Solution :=
  s.filterNames fun name => !names.contains name

/-- Binds the given names one after another, so that of two entries of one name the later wins. -/
def insertAll (s : Solution) (entries : List (String × Term)) : Solution :=
  entries.foldl (fun s e => s.insert e.1 e.2) s

def ofList (entries : List (String × Term)) : Solution := empty.insertAll entries

theorem lookup_insertEntry (name : String) (value : Term) (other : String)
    {entries : List (String × Term)} (h : entries.Pairwise fun a b => a.1 < b.1) :
    (insertEntry name value entries).lookup other =
      if other = name then some value else entries.lookup other := by
  induction entries with
  | nil =>
    by_cases hName : other = name
    · simp [insertEntry, hName]
    · have hBeq : (other == name) = false := by simpa using hName
      simp [insertEntry, List.lookup_cons, hBeq, hName]
  | cons entry rest ih =>
    rw [List.pairwise_cons] at h
    obtain ⟨n, v⟩ := entry
    simp only [insertEntry]
    by_cases hName : other = name
    · subst hName
      split
      · simp
      · split
        · simp
        · next hNe =>
          have hBeq : (other == n) = false := by simpa using hNe
          simp [List.lookup_cons, hBeq, ih h.2]
    · have hBeq : (other == name) = false := by simpa using hName
      split
      · simp [List.lookup_cons, hBeq]
      · split
        · next hEq =>
          have hEq : name = n := hEq
          simp [List.lookup_cons, hBeq, ← hEq]
        · simp [List.lookup_cons, ih h.2, hName]

@[simp]
theorem get?_insert (s : Solution) (name : String) (value : Term) (other : String) :
    (s.insert name value).get? other = if other = name then some value else s.get? other :=
  lookup_insertEntry name value other s.sorted

theorem lookup_filter (keep : String → Bool) (name : String) (entries : List (String × Term)) :
    (entries.filter fun e => keep e.1).lookup name =
      if keep name then entries.lookup name else none := by
  induction entries with
  | nil => simp
  | cons entry rest ih =>
    obtain ⟨n, v⟩ := entry
    by_cases hName : name = n
    · subst hName
      by_cases hKeep : keep name
      · simp [hKeep]
      · simp [hKeep, ih]
    · have hBeq : (name == n) = false := by simpa using hName
      by_cases hKeep : keep n
      · simp [List.lookup_cons, hKeep, hBeq, ih]
      · simp [List.lookup_cons, hKeep, hBeq, ih]

theorem entries_filterNames (s : Solution) (keep : String → Bool) :
    (s.filterNames keep).entries = s.entries.filter fun e => keep e.1 := by
  rw [filterNames]
  split
  next hAll =>
    rw [names, List.all_map, List.all_eq_true] at hAll
    exact (List.filter_eq_self.mpr hAll).symm
  next => rfl

@[simp]
theorem get?_filterNames (s : Solution) (keep : String → Bool) (name : String) :
    (s.filterNames keep).get? name = if keep name then s.get? name else none := by
  rw [get?, entries_filterNames]
  exact lookup_filter keep name s.entries

@[simp]
theorem get?_empty (name : String) : empty.get? name = none := rfl

theorem lookup_eq_some_iff {entries : List (String × Term)} {name : String} {value : Term}
    (h : entries.Pairwise fun a b => a.1 < b.1) :
    entries.lookup name = some value ↔ (name, value) ∈ entries := by
  induction entries with
  | nil => simp
  | cons entry rest ih =>
    rw [List.pairwise_cons] at h
    obtain ⟨n, v⟩ := entry
    by_cases hName : name = n
    · subst hName
      have hRest : ∀ w, (name, w) ∉ rest := fun w hMem => String.lt_irrefl name (h.1 (name, w) hMem)
      simp [hRest, eq_comm]
    · have hBeq : (name == n) = false := by simpa using hName
      simp [List.lookup_cons, hBeq, ih h.2, hName]

theorem get?_eq_some_iff {s : Solution} {name : String} {value : Term} :
    s.get? name = some value ↔ (name, value) ∈ s.entries :=
  lookup_eq_some_iff s.sorted

/-- Sorted lists of entries with the same members are the same list. -/
theorem entries_eq_of_mem_iff :
    ∀ {a b : List (String × Term)}, (a.Pairwise fun x y => x.1 < y.1) →
      (b.Pairwise fun x y => x.1 < y.1) → (∀ e, e ∈ a ↔ e ∈ b) → a = b
  | [], [], _, _, _ => rfl
  | [], y :: ys, _, _, h => absurd ((h y).mpr (by simp)) (by simp)
  | x :: xs, [], _, _, h => absurd ((h x).mp (by simp)) (by simp)
  | x :: xs, y :: ys, hA, hB, h => by
    rw [List.pairwise_cons] at hA hB
    have hHead : x = y := by
      rcases List.mem_cons.mp ((h x).mp (by simp)) with hEq | hMemX
      · exact hEq
      · rcases List.mem_cons.mp ((h y).mpr (by simp)) with hEq | hMemY
        · exact hEq.symm
        · exact absurd (String.lt_trans (hA.1 y hMemY) (hB.1 x hMemX)) (String.lt_irrefl _)
    subst hHead
    congr 1
    refine entries_eq_of_mem_iff hA.2 hB.2 fun e => ⟨fun hMem => ?_, fun hMem => ?_⟩
    · rcases List.mem_cons.mp ((h e).mp (List.mem_cons_of_mem _ hMem)) with rfl | hMem'
      · exact absurd (hA.1 e hMem) (String.lt_irrefl _)
      · exact hMem'
    · rcases List.mem_cons.mp ((h e).mpr (List.mem_cons_of_mem _ hMem)) with rfl | hMem'
      · exact absurd (hB.1 e hMem) (String.lt_irrefl _)
      · exact hMem'

/-- Solutions that bind the same names to the same terms are equal. -/
theorem ext_get? {a b : Solution} (h : ∀ name, a.get? name = b.get? name) : a = b := by
  have hEntries : a.entries = b.entries := by
    refine entries_eq_of_mem_iff a.sorted b.sorted fun e => ?_
    obtain ⟨name, value⟩ := e
    rw [← get?_eq_some_iff, ← get?_eq_some_iff, h]
  cases a
  cases b
  cases hEntries
  rfl

end Solution

end SolutionFlow
