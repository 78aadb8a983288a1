/-!
What can be wrong with a document, and how it is told: by the line and the column of the place, the
line itself with a mark under the place, and what was wrong or expected there.
-/

namespace SolutionFlow.Document

/-- The kinds of values that a document writes. -/
inductive Kind where
  | string
  | integer
  | float
  | boolean
  | datetime
  | array
  | inlineTable
deriving DecidableEq

def Kind.name : Kind → String
  | .string => "string"
  | .integer => "integer"
  | .float => "float"
  | .boolean => "boolean"
  | .datetime => "datetime"
  | .array => "array"
  | .inlineTable => "inline table"

/-- What is wrong with something that is well written. -/
inductive Cause where
  | outOfRange
  | tooLarge
  | tooSmall
  | tooDeep
  /-- A name is given twice in the table under some names, or in a table that is not told. -/
  | duplicate (name : String) (place : Option (List String))
  /-- A key leads through something that is not a table. -/
  | notTable (path : List String) (kind : Kind)

/-- A thing in the quotes of messages. -/
def mark (thing : String) : String := "\x60" ++ thing ++ "\x60"

/-- Some names with points between them. -/
def dotted (names : List String) : String := String.intercalate "." names

def Cause.message : Cause → String
  | .outOfRange => "value is out of range"
  | .tooLarge => "number too large to fit in target type"
  | .tooSmall => "number too small to fit in target type"
  | .tooDeep => "recursion limit exceeded"
  | .duplicate name none => "duplicate key " ++ mark name
  | .duplicate name (some []) => "duplicate key " ++ mark name ++ " in document root"
  | .duplicate name (some path) =>
    "duplicate key " ++ mark name ++ " in table " ++ mark (dotted path)
  | .notTable path kind =>
    "dotted key " ++ mark (dotted path) ++ " attempted to extend non-table type (" ++ kind.name ++
      ")"

/-- Why a text could not be read, and where. The place is told by the text that stands from there
on. After a certain fault nothing else is tried. -/
structure Fault where
  place : List Char
  certain : Bool := false
  label : Option String := none
  expected : List String := []
  cause : Option Cause := none

namespace Fault

/-- What was wrong, line by line; of a plain failure nothing is told. -/
def reason (fault : Fault) : String :=
  let label := fault.label.toList.map ("invalid " ++ ·)
  let expected :=
    if fault.expected.isEmpty then [] else ["expected " ++ String.intercalate ", " fault.expected]
  String.intercalate "\n" (label ++ expected ++ fault.cause.toList.map Cause.message)

/-- The size in bytes of some characters. -/
def byteSize (text : List Char) : Nat := (String.ofList text).utf8ByteSize

/-- The number of the line of a fault, and what stands before the place in this line. The end of a
text belongs to the line of its last character, which comes before it. -/
def lineBefore (text : List Char) (fault : Fault) : Nat × List Char :=
  let before := text.take (text.length - fault.place.length)
  let last := if fault.place.isEmpty then before.drop (before.length - 1) else []
  let before := before.take (before.length - last.length)
  (before.count '\n', (before.reverse.takeWhile (· != '\n')).reverse ++ last)

/-- The column of a place behind some characters of its line: their number, or before a character
outside ASCII the number of their bytes. -/
def column (before : List Char) (place : List Char) : Nat :=
  if place.head?.any fun c => decide (1 < c.utf8Size) then byteSize before else before.length

/-- The fault of a text, with its place and its line. The mark is as wide as the character at the
place has bytes, but does not leave the line. -/
def report (text : String) (fault : Fault) : String :=
  let (number, before) := lineBefore text.toList fault
  let column := column before fault.place
  let content := (text.splitOn "\n").getD number ""
  let width := max 1 (min (byteSize (fault.place.take 1)) (content.utf8ByteSize - column))
  let shown := toString (number + 1)
  let gutter := String.ofList (List.replicate (shown.length + 1) ' ') ++ "|"
  "TOML parse error at line " ++ shown ++ ", column " ++ toString (column + 1) ++ "\n" ++
    gutter ++ "\n" ++ shown ++ " | " ++ content ++ "\n" ++
    gutter ++ String.ofList (List.replicate (column + 1) ' ') ++
    String.ofList (List.replicate width '^') ++ "\n" ++ fault.reason ++ "\n"

end Fault

end SolutionFlow.Document
