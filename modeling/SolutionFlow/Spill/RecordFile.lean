import SolutionFlow.Error.Query

/-!
Files of records. A file holds cells, such as bytes, and only the number of its records is known besides.
Records are appended, read at a place that was noted when they were written, or read one after another
from the beginning. The length of a record is kept in a word of 32 bits.
-/

namespace SolutionFlow

/-- How items are written in cells, and read from the front of what is there. What has been written is read
back as it was, whatever comes behind it, and a word of 32 bits holds its length. -/
class Recordable (α : Type) where
  Cell : Type
  write : α → List Cell
  read : List Cell → Except String (α × List Cell)
  read_write : ∀ item rest, read (write item ++ rest) = .ok (item, rest)
  length_lt : ∀ item, (write item).length < UInt32.size

/-- Where nothing else is said, an item is one cell. -/
instance (priority := low) wholeCells (α : Type) : Recordable α where
  Cell := α
  write item := [item]
  read
    | [] => .error "io error: failed to fill whole buffer"
    | item :: rest => .ok (item, rest)
  read_write _ _ := rfl
  length_lt _ := show 1 < UInt32.size by decide

namespace Recordable

variable {α : Type} [Recordable α]

/-- The length of the record of an item, as it is kept. -/
def length (item : α) : UInt32 := .ofNat (write item).length

@[simp]
theorem toNat_length (item : α) : (length item).toNat = (write item).length :=
  UInt32.toNat_ofNat_of_lt' (length_lt item)

end Recordable

/-- A file to which records have been appended. -/
structure RecordFile (α : Type) [Recordable α] where
  cells : List (Recordable.Cell α)
  count : Nat
  written : ∃ items : List α, items.length = count ∧ cells = items.flatMap Recordable.write

namespace RecordFile

variable {α : Type} [Recordable α]

def empty : RecordFile α := ⟨[], 0, [], rfl, rfl⟩

/-- Appends a record, and tells its place and its length. -/
def append (f : RecordFile α) (item : α) : (Nat × UInt32) × RecordFile α :=
  ((f.cells.length, Recordable.length item),
    { cells := f.cells ++ Recordable.write item
      count := f.count + 1
      written := by
        obtain ⟨items, hCount, hCells⟩ := f.written
        exact ⟨items ++ [item], by simp [hCount], by simp [hCells]⟩ })

/-- Reads the record of a length at a place. -/
def readAt (f : RecordFile α) (place : Nat) (length : UInt32) : Except SpillError α :=
  let buffer := (f.cells.drop place).take length.toNat
  if buffer.length < length.toNat then .error (.io "failed to fill whole buffer")
  else
    match Recordable.read buffer with
    | .error reason => .error (.encoding reason)
    | .ok (item, _) => .ok item

/-- Whether one of the next records fulfils a condition. Those behind it are not read. -/
def scanFrom (p : α → Bool) : Nat → List (Recordable.Cell α) → Except SpillError Bool
  | 0, _ => .ok false
  | n + 1, cells =>
    match Recordable.read cells with
    | .error reason => .error (.encoding reason)
    | .ok (item, rest) => if p item then .ok true else scanFrom p n rest

/-- Whether some record fulfils a condition. -/
def scan (f : RecordFile α) (p : α → Bool) : Except SpillError Bool := scanFrom p f.count f.cells

/-- The next records. -/
def itemsFrom : Nat → List (Recordable.Cell α) → List α
  | 0, _ => []
  | n + 1, cells =>
    match Recordable.read cells with
    | .error _ => []
    | .ok (item, rest) => item :: itemsFrom n rest

/-- All records, in the order in which they were appended. -/
def items (f : RecordFile α) : List α := itemsFrom f.count f.cells

theorem itemsFrom_written (items : List α) :
    itemsFrom items.length (items.flatMap Recordable.write) = items := by
  induction items with
  | nil => rfl
  | cons item later ih =>
      rw [List.length_cons, List.flatMap_cons, itemsFrom, Recordable.read_write]
      dsimp only
      rw [ih]

/-- A file consists of its records and nothing else. -/
theorem items_eq {f : RecordFile α} {items : List α} (hCount : items.length = f.count)
    (hCells : f.cells = items.flatMap Recordable.write) : f.items = items := by
  rw [RecordFile.items, ← hCount, hCells, itemsFrom_written]

theorem length_items (f : RecordFile α) : f.items.length = f.count := by
  obtain ⟨items, hCount, hCells⟩ := f.written
  rw [items_eq hCount hCells, hCount]

theorem cells_eq (f : RecordFile α) : f.cells = f.items.flatMap Recordable.write := by
  obtain ⟨items, hCount, hCells⟩ := f.written
  rw [items_eq hCount hCells, hCells]

@[simp]
theorem items_empty : (empty : RecordFile α).items = [] := rfl

@[simp]
theorem items_append (f : RecordFile α) (item : α) : (f.append item).2.items = f.items ++ [item] := by
  refine items_eq ?_ ?_
  · simp [append, length_items]
  · simp [append, ← cells_eq]

end RecordFile

end SolutionFlow
