import SolutionFlow.Number.Text
import SolutionFlow.Text.Quoted

/-!
Values of settings as they are read, before it is known what they have to be. Of two layers of
settings the upper one wins, entry by entry.
-/

namespace SolutionFlow

/-- A value that was read from a file or from a variable. -/
inductive Setting where
  | boolean (value : Bool)
  | unsigned (value : Nat)
  | signed (value : Int)
  | float (value : Double)
  | character (value : Char)
  | text (value : String)
  | sequence (values : List Setting)
  | table (entries : List (String × Setting))

namespace Setting

instance : Inhabited Setting := ⟨.table []⟩

/-- Puts an entry into a table, instead of one of the same name. -/
def putEntry {α : Type} (name : String) (value : α) : List (String × α) → List (String × α)
  | [] => [(name, value)]
  | (n, v) :: rest => if n = name then (n, value) :: rest else (n, v) :: putEntry name value rest

/-- The value of a name in a table. -/
def entry? (entries : List (String × Setting)) (name : String) : Option Setting :=
  entries.lookup name

/-- The entries of a table in the order of their names. -/
def inOrder (entries : List (String × Setting)) : List (String × Setting) :=
  entries.mergeSort fun a b => decide (a.1 ≤ b.1)

mutual

/-- Lays one value over another. Only tables are combined. -/
def layer (base : Setting) : Setting → Setting
  | .table entries =>
    match base with
    | .table below => .table (layerEntries below entries)
    | _ => .table entries
  | value => value

/-- Lays the entries of a table over those of another, one after another. -/
def layerEntries (below : List (String × Setting)) :
    List (String × Setting) → List (String × Setting)
  | [] => below
  | (name, value) :: rest =>
    let value :=
      match entry? below name with
      | some lower => layer lower value
      | none => value
    layerEntries (putEntry name value below) rest

end

/-- How messages name a value. A character is named like a text. -/
def describe : Setting → String
  | .boolean value => "bool " ++ (if value then "true" else "false")
  | .unsigned value => "unsigned int \x60" ++ toString value ++ "\x60"
  | .signed value => "signed int \x60" ++ toString value ++ "\x60"
  | .float value => "float \x60" ++ value.positional ++ "\x60"
  | .character value => "string " ++ Text.quoted (String.ofList [value])
  | .text value => "string " ++ Text.quoted value
  | .sequence _ => "sequence"
  | .table _ => "map"

end Setting

end SolutionFlow
