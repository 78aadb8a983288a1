import SolutionFlow.Spill.Options

/-!
A sorter that counts repeats and keeps no more rows than its limit. What it holds in memory is
trimmed from the top as soon as it passes the limit, and written out as a sorted run as soon as it
has as many different keys as the threshold. A drain merges what is in memory with the runs: it takes
the least key at the front of any of them, adds up its occurrences, and stops at the limit.
-/

namespace SolutionFlow

/-- Keys in increasing order, each with the number of its occurrences. -/
abbrev Counted (κ : Type) := List (κ × Nat)

namespace Counted

variable {κ : Type}

/-- Takes rows from the front of a list until at most `limit` of `size` are left. On a list in
decreasing order these are the rows with the greatest keys. -/
def dropExcess (limit : Nat) : Counted κ → Nat → Counted κ × Nat
  | [], size => ([], size)
  | (key, n) :: rest, size =>
    if size ≤ limit then ((key, n) :: rest, size)
    else if size - limit < n then ((key, n - (size - limit)) :: rest, limit)
    else dropExcess limit rest (size - n)

variable [Ord κ]

/-- Adds occurrences of a key. -/
def add (key : κ) (count : Nat) : Counted κ → Counted κ
  | [] => [(key, count)]
  | (k, n) :: rest =>
    match compare key k with
    | .lt => (key, count) :: (k, n) :: rest
    | .eq => (k, n + count) :: rest
    | .gt => (k, n) :: add key count rest

/-- Takes the entry with the least key from the front of some lists; of several with that key, the one
of the first list. -/
def popLeast : List (Counted κ) → Option ((κ × Nat) × List (Counted κ))
  | [] => none
  | [] :: others => (popLeast others).map fun (least, rest) => (least, [] :: rest)
  | (entry :: later) :: others =>
    match popLeast others with
    | none => some (entry, later :: others)
    | some (least, rest) =>
      if (compare entry.1 least.1).isLE then some (entry, later :: others)
      else some (least, (entry :: later) :: rest)

/-- How many entries some lists have. -/
def entries (sources : List (Counted κ)) : Nat := sources.flatten.length

/-- The entry that is taken was at the front of one of the lists. -/
theorem popLeast_split {sources rest : List (Counted κ)} {least : κ × Nat}
    (h : popLeast sources = some (least, rest)) :
    ∃ before later after, sources = before ++ (least :: later) :: after ∧
      rest = before ++ later :: after := by
  induction sources generalizing least rest with
  | nil => simp [popLeast] at h
  | cons source others ih =>
      cases source with
      | nil =>
          obtain ⟨⟨_, _⟩, hPop, hEq⟩ := Option.map_eq_some_iff.mp h
          obtain ⟨rfl, rfl⟩ := Prod.mk.inj hEq
          obtain ⟨before, later, after, rfl, rfl⟩ := ih hPop
          exact ⟨[] :: before, later, after, rfl, rfl⟩
      | cons entry later =>
          rw [popLeast] at h
          split at h
          next =>
            obtain ⟨rfl, rfl⟩ := Prod.mk.inj (Option.some.inj h)
            exact ⟨[], later, others, rfl, rfl⟩
          next hPop =>
            split at h
            next =>
              obtain ⟨rfl, rfl⟩ := Prod.mk.inj (Option.some.inj h)
              exact ⟨[], later, others, rfl, rfl⟩
            next =>
              obtain ⟨rfl, rfl⟩ := Prod.mk.inj (Option.some.inj h)
              obtain ⟨before, behind, after, rfl, rfl⟩ := ih hPop
              exact ⟨(entry :: later) :: before, behind, after, rfl, rfl⟩

theorem entries_popLeast {sources rest : List (Counted κ)} {least : κ × Nat}
    (h : popLeast sources = some (least, rest)) : entries sources = entries rest + 1 := by
  obtain ⟨before, later, after, rfl, rfl⟩ := popLeast_split h
  simp only [entries, List.flatten_append, List.flatten_cons, List.length_append, List.length_cons]
  omega

/-- Takes all entries with a key from the front, and adds their counts to what has been counted. -/
def gather (key : κ) (count : Nat) (sources : List (Counted κ)) : Nat × List (Counted κ) :=
  match _hPop : popLeast sources with
  | none => (count, sources)
  | some (next, rest) =>
    if compare next.1 key = .eq then gather key (count + next.2) rest else (count, sources)
termination_by entries sources
decreasing_by
  have hOne := entries_popLeast _hPop
  omega

theorem gather_of_none {sources : List (Counted κ)} (h : popLeast sources = none) (key : κ)
    (count : Nat) : gather key count sources = (count, sources) := by
  rw [gather]
  split
  next => rfl
  next hPop => simp [h] at hPop

theorem gather_of_some {sources rest : List (Counted κ)} {next : κ × Nat}
    (h : popLeast sources = some (next, rest)) (key : κ) (count : Nat) :
    gather key count sources =
      if compare next.1 key = .eq then gather key (count + next.2) rest else (count, sources) := by
  rw [gather]
  split
  next hPop => simp [h] at hPop
  next hPop =>
    obtain ⟨rfl, rfl⟩ := Prod.mk.inj (Option.some.inj (h.symm.trans hPop))
    rfl

theorem entries_gather (key : κ) (count : Nat) (sources : List (Counted κ)) :
    entries (gather key count sources).2 ≤ entries sources := by
  fun_induction gather key count sources with
  | case1 => exact Nat.le_refl _
  | case2 count sources next rest hPop hSame ih =>
      have hOne := entries_popLeast hPop
      omega
  | case3 => exact Nat.le_refl _

/-- The first `limit` rows of some lists in order, a key with count `n` standing for `n` rows. -/
def mergeAll (limit : Nat) (sources : List (Counted κ)) : Counted κ :=
  if limit = 0 then []
  else
    match _hPop : popLeast sources with
    | none => []
    | some ((key, n), rest) =>
      let gathered := gather key n rest
      let count := min gathered.1 limit
      (key, count) :: mergeAll (limit - count) gathered.2
termination_by entries sources
decreasing_by
  have hOne := entries_popLeast _hPop
  have hOthers := entries_gather key n rest
  omega

@[simp]
theorem mergeAll_zero (sources : List (Counted κ)) : mergeAll 0 sources = [] := by
  rw [mergeAll, if_pos rfl]

theorem mergeAll_of_none {sources : List (Counted κ)} (h : popLeast sources = none) (limit : Nat) :
    mergeAll limit sources = [] := by
  rw [mergeAll]
  split
  next => rfl
  next =>
    split
    next => rfl
    next hPop => simp [h] at hPop

theorem mergeAll_of_some {limit n : Nat} {key : κ} {sources rest : List (Counted κ)} (hLimit : limit ≠ 0)
    (h : popLeast sources = some ((key, n), rest)) :
    mergeAll limit sources =
      (key, min (gather key n rest).1 limit) ::
        mergeAll (limit - min (gather key n rest).1 limit) (gather key n rest).2 := by
  rw [mergeAll, if_neg hLimit]
  split
  next hPop => simp [h] at hPop
  next hPop =>
    obtain ⟨hEntry, rfl⟩ := Prod.mk.inj (Option.some.inj (h.symm.trans hPop))
    obtain ⟨rfl, rfl⟩ := Prod.mk.inj hEntry
    rfl

end Counted

/-- The sorter: the keys in memory with the number of their rows, and the runs written so far. -/
structure Sorter (κ : Type) where
  options : SpillOptions
  limit : Nat
  held : Counted κ
  size : Nat
  runs : List (Counted κ)
  closed : Bool

namespace Sorter

variable {κ : Type}

def new (limit : Nat) (options : SpillOptions) : Sorter κ := ⟨options, limit, [], 0, [], false⟩

/-- How many different keys make a run. -/
def runLength (s : Sorter κ) : Nat := max s.options.threshold 1

/-- Gives up all keys. A closed sorter stays closed. -/
def close (s : Sorter κ) : Sorter κ :=
  { s with held := [], size := 0, runs := [], closed := true }

/-- Takes away the greatest keys in memory that go beyond the limit. -/
def trim (s : Sorter κ) : Sorter κ :=
  let (kept, size) := Counted.dropExcess s.limit s.held.reverse s.size
  { s with held := kept.reverse, size := size }

/-- Writes what is in memory as a run, once it is long enough. -/
def spill (s : Sorter κ) : Except SpillError Unit × Sorter κ :=
  if s.held.length < s.runLength then (.ok (), s)
  else if s.options.canWrite then
    (.ok (), { s with held := [], size := 0, runs := s.runs ++ [s.held] })
  else (.error SpillOptions.unwritable, s)

variable [Ord κ]

/-- Adds one occurrence of a key. -/
def add (s : Sorter κ) (key : κ) : Except SpillError Unit × Sorter κ :=
  if s.closed then (.error .closed, s)
  else if s.limit = 0 then (.ok (), s)
  else spill (trim { s with held := Counted.add key 1 s.held, size := s.size + 1 })

/-- The first rows of all that is in memory or in a run, up to the limit. -/
def sorted (s : Sorter κ) : Counted κ := Counted.mergeAll s.limit (s.held :: s.runs)

/-- Takes out everything added so far: the first rows in order, up to the limit. -/
def drain (s : Sorter κ) : Except SpillError (Counted κ) × Sorter κ :=
  if s.closed then (.error .closed, s)
  else (.ok s.sorted, { s with held := [], size := 0, runs := [] })

end Sorter

end SolutionFlow
