import SolutionFlow.Settings.Document.Value

/-!
Settings from files in the TOML format: tables under headers, keys with points, and values of all
kinds. What is read is a table; the first mistake is reported with its place.
-/

namespace SolutionFlow.Document

open Reader

/-- What has been read: all entries, and the names of the current table. -/
structure Draft where
  entries : Entries
  current : List String

/-- A key and its value, up to the end of the line. -/
def entry (draft : Draft) : Reader Draft :=
  let pair := do
    let key ← key
    commit do
      expecting [mark ".", mark "="] (exactly ['='])
      blanks
      let datum ← value
      expecting ["newline", mark "#"] trailing
      return (key, datum)
  judged pair fun (key, datum) => do
    let entries ← settle (draft.entries.insertUnder draft.current key datum)
    return { draft with entries := entries }

/-- A header between brackets, which opens a table, up to the end of the line. -/
def headerBetween (left right : String) (enter : Key → Entries → Except Cause Entries)
    (draft : Draft) : Reader Draft :=
  let name := do
    exactly left.toList
    let key ← commit key
    commit (expecting [mark ".", mark right] (exactly right.toList))
    commit (expecting ["newline", mark "#"] trailing)
    return key
  judged name fun key => do
    return ⟨← settle (enter key draft.entries), key.names⟩

/-- The header of a table, or in two brackets that of the next table of an array. -/
def header (draft : Draft) : Reader Draft := named "table header" do
  match ← get with
  | '[' :: '[' :: _ => headerBetween "[[" "]]" Entries.openNext draft
  | '[' :: _ :: _ => headerBetween "[" "]" Entries.openTable draft
  | _ => stop

/-- One line, or the lines of one entry, and the blanks at the start of the next line. -/
def line (draft : Draft) : Reader Draft := do
  let found ←
    match ← next with
    | none => stop
    | some '#' => commit (do comment; lineEnd; pure draft)
    | some '[' => commit (header draft)
    | some '\n' | some '\r' => do newline; pure draft
    | some _ => commit (entry draft)
  blanks
  return found

/-- All entries of a document. A mark for the order of bytes may stand at its start. -/
def document : Reader Entries := do
  let _ ← attempt (exactly ['\ufeff'])
  blanks
  let draft ← exhaust line ⟨[], []⟩
  finish
  return draft.entries

/-- The entries of a document, or the text of its first mistake. -/
def read (text : String) : Except String (List (String × Setting)) :=
  match document text.toList with
  | .ok (entries, _) => .ok (Node.settings entries)
  | .error fault => .error (fault.report text)

end SolutionFlow.Document
