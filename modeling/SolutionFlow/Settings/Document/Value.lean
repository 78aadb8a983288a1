import SolutionFlow.Settings.Document.Moment
import SolutionFlow.Settings.Document.Number
import SolutionFlow.Settings.Document.Table

/-!
Values of all kinds. The first character decides which kind a value is; arrays and inline tables are
nested up to a fixed depth.
-/

namespace SolutionFlow.Document

open Reader

def fillerWithin : Nat → Reader Unit
  | 0 => pure ()
  | fuel + 1 => do
    blanks
    match ← next with
    | some '#' => comment; newline; fillerWithin fuel
    | some '\n' | some '\r' => newline; fillerWithin fuel
    | _ => pure ()

/-- Blanks, line ends and comments between the values of an array. -/
def filler : Reader Unit := fun text => fillerWithin (text.length + 1) text

/-- The values of an array up to its closing bracket. The last one may have a comma too. -/
def elements (value : Reader Datum) : Reader (List Datum) := do
  if (← next) = some ']' then return []
  let element := do
    filler
    let found ← value
    filler
    return found
  let found ← attempt (separated (exactly [',']) element)
  if found.isSome then
    let _ ← attempt (exactly [','])
  filler
  match found with
  | some (first, rest) => return first :: rest
  | none => return []

def array (value : Reader Datum) : Reader Datum := do
  exactly ['[']
  let found ← commit (elements value)
  commit (named "array" (expecting [mark "]"] (exactly [']'])))
  return ⟨.array, .sequence (found.map Datum.setting)⟩

/-- An entry of an inline table. -/
def inlineEntry (value : Reader Datum) : Reader (Key × Datum) := do
  let key ← key
  commit do
    expecting [mark ".", mark "="] (exactly ['='])
    blanks
    let found ← value
    blanks
    return (key, found)

/-- The entries of an inline table, which has no comma behind the last one. -/
def inlineEntries (value : Reader Datum) : Reader Entries :=
  let pairs := do
    let found ← attempt (separated (exactly [',']) (inlineEntry value))
    blanks
    return found
  judged pairs fun
    | some (first, rest) =>
      settle ((first :: rest).foldlM (fun found (key, datum) => found.insert .braces key datum) [])
    | none => pure []

def inlineTable (value : Reader Datum) : Reader Datum := do
  exactly ['{']
  let found ← commit (inlineEntries value)
  commit (named "inline table" (expecting [mark "\x7d"] (exactly ['}'])))
  return ⟨.inlineTable, .table (Node.settings found)⟩

def numberOrMoment : Reader Datum :=
  either (Datum.ofMoment <$> moment)
    (either (Datum.ofDouble <$> float) (Datum.ofInt <$> integer))

/-- A word that stands for a value. -/
def keyword (word : String) (datum : Datum) : Reader Datum := expecting [mark word] do
  commit (exactly word.toList)
  return datum

/-- A value; arrays and inline tables are read by another reader. -/
def valueWith (nested : Reader Datum) : Reader Datum := do
  match ← next with
  | none => stop
  | some '"' | some '\'' => Datum.ofText <$> string
  | some '[' | some '{' => nested
  | some '_' => expecting ["leading digit"] (Datum.ofInt <$> integer)
  | some '.' => expecting ["leading digit"] (Datum.ofDouble <$> float)
  | some 't' => keyword "true" (.ofBool true)
  | some 'f' => keyword "false" (.ofBool false)
  | some 'i' => expecting [mark "inf"] (Datum.ofDouble <$> infinite)
  | some 'n' => expecting [mark "nan"] (Datum.ofDouble <$> notANumber)
  | some c =>
    if isSign c || c.isDigit then numberOrMoment
    else named "string" (expecting [mark "\"", mark "'"] stop)

/-- A value that may be nested so deep. -/
def valueWithin : Nat → Reader Datum
  | 0 => valueWith (commit (refuse (some .tooDeep)))
  | depth + 1 =>
    valueWith (either (array (valueWithin depth)) (inlineTable (valueWithin depth)))

def value : Reader Datum := valueWithin maxDepth

end SolutionFlow.Document
