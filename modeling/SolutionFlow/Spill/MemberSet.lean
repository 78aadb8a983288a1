import SolutionFlow.Spill.Options
import SolutionFlow.Spill.RecordFile

/-!
A set that keeps its first members in memory and appends later ones to a file. Of a member in the
file only its hash and its place stay in memory, so a search reads back the members that share a
hash with what it looks for.
-/

namespace SolutionFlow

/-- Where the members with some hashes are in a file, and how long their records are. -/
abbrev PlaceIndex := List (UInt64 × List (Nat × UInt32))

namespace PlaceIndex

/-- The places noted for a hash. -/
def placesOf (index : PlaceIndex) (h : UInt64) : List (Nat × UInt32) := (index.lookup h).getD []

/-- Notes a place for a hash, behind the places noted before. -/
def note (h : UInt64) (place : Nat × UInt32) : PlaceIndex → PlaceIndex
  | [] => [(h, [place])]
  | (g, places) :: rest =>
    if g = h then (g, places ++ [place]) :: rest else (g, places) :: note h place rest

theorem placesOf_note (index : PlaceIndex) (h g : UInt64) (place : Nat × UInt32) :
    (note h place index).placesOf g = index.placesOf g ++ if g = h then [place] else [] := by
  simp only [placesOf]
  induction index with
  | nil =>
      by_cases hSame : g = h
      · simp [note, hSame]
      · have hBeq : (g == h) = false := by simpa using hSame
        simp [note, List.lookup_cons, hBeq, hSame]
  | cons entry rest ih =>
      obtain ⟨first, places⟩ := entry
      rw [note]
      by_cases hFirst : first = h
      · subst hFirst
        by_cases hSame : g = first
        · simp [hSame]
        · have hBeq : (g == first) = false := by simpa using hSame
          simp [List.lookup_cons, hBeq, hSame]
      · by_cases hSame : g = first
        · simp [hSame, hFirst]
        · have hBeq : (g == first) = false := by simpa using hSame
          simp [hFirst, List.lookup_cons, hBeq, ih]

end PlaceIndex

section

variable {α : Type} [Recordable α] [Hashable α]

/-- The places of the items with a hash, if these items are written one after another from a place on. -/
def placesFrom (h : UInt64) (place : Nat) : List α → List (Nat × UInt32)
  | [] => []
  | item :: later =>
    let others := placesFrom h (place + (Recordable.write item).length) later
    if hash item = h then (place, Recordable.length item) :: others else others

theorem placesFrom_concat (h : UInt64) (place : Nat) (items : List α) (item : α) :
    placesFrom h place (items ++ [item]) =
      placesFrom h place items ++
        if h = hash item then
          [(place + (items.flatMap Recordable.write).length, Recordable.length item)]
        else [] := by
  induction items generalizing place with
  | nil => simp [placesFrom, eq_comm]
  | cons first later ih =>
      rw [List.cons_append, placesFrom, placesFrom, ih, List.flatMap_cons, List.length_append, Nat.add_assoc]
      split <;> rfl

end

/-- An append-only file of members and, for each hash, the places of the members with that hash. -/
structure MemberFile (α : Type) [Recordable α] [Hashable α] where
  file : RecordFile α
  index : PlaceIndex
  exact : ∀ h, index.placesOf h = placesFrom h 0 file.items

namespace MemberFile

variable {α : Type} [Recordable α] [Hashable α]

def items (f : MemberFile α) : List α := f.file.items

def empty : MemberFile α := ⟨.empty, [], fun _ => rfl⟩

def append (f : MemberFile α) (item : α) : MemberFile α where
  file := (f.file.append item).2
  index := .note (hash item) (f.file.append item).1 f.index
  exact h := by
    rw [PlaceIndex.placesOf_note, RecordFile.items_append, placesFrom_concat, ← f.exact, Nat.zero_add,
      ← RecordFile.cells_eq]
    rfl

variable [DecidableEq α]

/-- Whether the record at one of the places is `item`. -/
def search (file : RecordFile α) (item : α) : List (Nat × UInt32) → Except SpillError Bool
  | [] => .ok false
  | (place, length) :: later =>
    match file.readAt place length with
    | .error e => .error e
    | .ok candidate => if candidate = item then .ok true else search file item later

/-- Whether one of the members with the hash of `item` is `item`. -/
def contains (f : MemberFile α) (item : α) : Except SpillError Bool :=
  search f.file item (f.index.placesOf (hash item))

end MemberFile

/-- A set of members in memory and in a file, or a closed one. -/
structure MemberSet (α : Type) [Recordable α] [Hashable α] where
  options : SpillOptions
  memory : List α
  file : Option (MemberFile α)
  closed : Bool

namespace MemberSet

variable {α : Type} [Recordable α] [Hashable α]

def new (options : SpillOptions) : MemberSet α := ⟨options, [], none, false⟩

/-- All members, those in memory first. -/
def members (s : MemberSet α) : List α := s.memory ++ (s.file.map (·.items)).getD []

def size (s : MemberSet α) : Nat := s.memory.length + (s.file.map (·.file.count)).getD 0

def isEmpty (s : MemberSet α) : Bool := s.size == 0

/-- Gives up all members. A closed set stays closed. -/
def close (s : MemberSet α) : MemberSet α := ⟨s.options, [], none, true⟩

/-- Whether some member fulfils the condition. -/
def any (s : MemberSet α) (p : α → Bool) : Except SpillError Bool :=
  if s.closed then .error .closed
  else if s.memory.any p then .ok true
  else
    match s.file with
    | none => .ok false
    | some file => file.file.scan p

variable [DecidableEq α]

/-- Whether an item is in memory or in the file. -/
def find (s : MemberSet α) (item : α) : Except SpillError Bool :=
  if item ∈ s.memory then .ok true
  else
    match s.file with
    | none => .ok false
    | some file => file.contains item

def contains (s : MemberSet α) (item : α) : Except SpillError Bool :=
  if s.closed then .error .closed else s.find item

/-- Stores a new item. The set is unchanged if the file cannot be made. -/
def store (s : MemberSet α) (item : α) : Except SpillError Bool × MemberSet α :=
  if s.memory.length < s.options.threshold then
    (.ok true, { s with memory := s.memory ++ [item] })
  else
    match s.file with
    | some file => (.ok true, { s with file := some (file.append item) })
    | none =>
      if s.options.canWrite then
        (.ok true, { s with file := some (MemberFile.empty.append item) })
      else (.error SpillOptions.unwritable, s)

/-- Adds an item and tells whether it is new. -/
def add (s : MemberSet α) (item : α) : Except SpillError Bool × MemberSet α :=
  if s.closed then (.error .closed, s)
  else
    match s.find item with
    | .error e => (.error e, s)
    | .ok true => (.ok false, s)
    | .ok false => s.store item

end MemberSet

end SolutionFlow
