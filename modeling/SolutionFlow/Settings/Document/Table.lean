import SolutionFlow.Settings.Document.Key
import SolutionFlow.Settings.Value

/-!
Tables while a document is read. How a table came to be decides what may be added to it: a table
has one header, tables that dotted keys made have none, and dotted keys do not enter a table that
has one.
-/

namespace SolutionFlow.Document

/-- A value and the kind in which it was written. -/
structure Datum where
  kind : Kind
  setting : Setting

namespace Datum

def ofText (text : String) : Datum := ⟨.string, .text text⟩

def ofInt (i : Int) : Datum := ⟨.integer, .signed i⟩

def ofDouble (d : Double) : Datum := ⟨.float, .float d⟩

def ofBool (b : Bool) : Datum := ⟨.boolean, .boolean b⟩

/-- A date or a time of day, which is a table with one entry of a fixed name. -/
def ofMoment (text : List Char) : Datum :=
  ⟨.datetime, .table [("$__toml_private_datetime", .text (String.ofList text))]⟩

end Datum

/-- How a table came to be: under a header of its own, on the way to the table of a longer header,
or by dotted keys. -/
inductive Origin where
  | header
  | implied
  | dotted
deriving DecidableEq

/-- What a name stands for: a value, a table, or an array of tables, of which only the last one can
grow. -/
inductive Node where
  | value (datum : Datum)
  | table (origin : Origin) (entries : List (String × Node))
  | tables (earlier : List Setting) (last : List (String × Node))

abbrev Entries := List (String × Node)

mutual

/-- The value that a node has in the end. -/
def Node.setting : Node → Setting
  | .value datum => datum.setting
  | .table _ entries => .table (Node.settings entries)
  | .tables earlier last => .sequence (earlier ++ [.table (Node.settings last)])

/-- The values of all entries. -/
def Node.settings : List (String × Node) → List (String × Setting)
  | [] => []
  | (name, node) :: rest => (name, node.setting) :: Node.settings rest

end

/-- Where entries stand: in the table under some names, or between braces. -/
inductive Site where
  | headed (path : List String)
  | braces

namespace Site

/-- The table that the message about a name that is given twice tells. -/
def place : Site → Option (List String)
  | .headed path => some path
  | .braces => none

/-- Why a value cannot be entered like a table. Between braces a table in braces of its own counts
as given, and elsewhere as a value. -/
def blocked (site : Site) (done : List String) (name : String) (kind : Kind) : Cause :=
  match site with
  | .braces => if kind = .inlineTable then .duplicate name none else .notTable (done ++ [name]) kind
  | .headed _ => .notTable (done ++ [name]) kind

end Site

namespace Entries

/-- Changes the table to which some names lead, making those that are missing on the way in the
given manner. The last table of an array is entered. The change is told how its table came to be. -/
def change (site : Site) (manner : Origin) (act : Origin → Entries → Except Cause Entries)
    (done : List String) : List String → Origin → Entries → Except Cause Entries
  | [], origin, entries => act origin entries
  | name :: rest, _, entries =>
    let inner := change site manner act (done ++ [name]) rest
    match entries.lookup name with
    | none => do return Setting.putEntry name (.table manner (← inner manner [])) entries
    | some (.value datum) => .error (site.blocked done name datum.kind)
    | some (.tables earlier last) => do
      return Setting.putEntry name (.tables earlier (← inner .header last)) entries
    | some (.table origin found) => do
      if manner = .dotted ∧ origin = .header then .error (.duplicate name none)
      else return Setting.putEntry name (.table origin (← inner origin found)) entries

/-- Adds a value under a key. A table that dotted keys have made is reached by dotted keys only, and
no other table by any. -/
def insert (site : Site) (key : Key) (datum : Datum) (entries : Entries) : Except Cause Entries :=
  change site .dotted
    (fun origin found =>
      if (origin = .dotted) = (key.path = []) then .error (.duplicate key.name none)
      else if (found.lookup key.name).isSome then .error (.duplicate key.name site.place)
      else .ok (found ++ [(key.name, .value datum)]))
    [] key.path .header entries

/-- Changes what stands under the name of a header; the change may refuse it as given twice. -/
def changeNamed (header : Key) (act : Option Node → Option Node) (entries : Entries) :
    Except Cause Entries :=
  change (.headed []) .implied
    (fun _ found =>
      match act (found.lookup header.name) with
      | some node => .ok (Setting.putEntry header.name node found)
      | none => .error (.duplicate (shownName header.name) (some header.path)))
    [] header.path .header entries

/-- Gives a table its header. A table that was made on the way to a longer header gets one too. -/
def openTable (header : Key) : Entries → Except Cause Entries :=
  changeNamed header fun
    | none => some (.table .header [])
    | some (.table .implied found) => some (.table .header found)
    | some _ => none

/-- Starts the next table of an array. -/
def openNext (header : Key) : Entries → Except Cause Entries :=
  changeNamed header fun
    | none => some (.tables [] [])
    | some (.tables earlier last) => some (.tables (earlier ++ [.table (Node.settings last)]) [])
    | some _ => none

/-- Adds a value under a key to the table of a header. -/
def insertUnder (header : List String) (key : Key) (datum : Datum) (entries : Entries) :
    Except Cause Entries :=
  change (.headed header) .implied
    (fun _ found => insert (.headed header) key datum found) [] header .header entries

end Entries

end SolutionFlow.Document
