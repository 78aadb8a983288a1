import SolutionFlow.Settings.Document.Text

/-!
Keys: names with points between them. All but the last one lead to a table, in which the last one
names an entry.
-/

namespace SolutionFlow.Document

open Reader

/-- The names that lead to a table, and the name of an entry there. -/
structure Key where
  path : List String
  name : String

namespace Key

def ofNames (first : String) (rest : List String) : Key :=
  ⟨(first :: rest).dropLast, (first :: rest).getLast (by simp)⟩

def names (key : Key) : List String := key.path ++ [key.name]

end Key

def isBareChar (c : Char) : Bool := c.isAlphanum || c == '_' || c == '-'

/-- How deep keys lead and values are nested at most. -/
def maxDepth : Nat := 79

/-- One name, bare or in quotes. -/
def simpleKey : Reader String := do
  match ← next with
  | some '"' => String.ofList <$> basicString
  | some '\'' => String.ofList <$> literalString
  | _ => String.ofList <$> someOf isBareChar

def key : Reader Key :=
  let name := do
    blanks
    let found ← simpleKey
    blanks
    return found
  judged (named "key" (separated (exactly ['.']) name)) fun (first, rest) =>
    if rest.length < maxDepth then pure (Key.ofNames first rest) else refuse (some .tooDeep)

/-- The escape of a character in a shown name. -/
def shownEscape (c : Char) : String :=
  if c = '\x08' then "\\b"
  else if c = '\t' then "\\t"
  else if c = '\n' then "\\n"
  else if c = '\x0c' then "\\f"
  else if c = '\r' then "\\r"
  else if c = '"' then "\\\""
  else if c = '\\' then "\\\\"
  else
    let digits := (Nat.toDigits 16 c.toNat).map Char.toUpper
    String.ofList (['\\', 'u'] ++ List.replicate (4 - digits.length) '0' ++ digits)

/-- A name as a document would write it: bare, or else in the quotes that need no escapes, or else
in double quotes. -/
def shownName (name : String) : String :=
  let text := name.toList
  let isControl (c : Char) : Bool := !isPrintable c || c == '\t'
  if !text.isEmpty && text.all isBareChar then name
  else if !text.any fun c => isControl c || c == '"' || c == '\\' then "\"" ++ name ++ "\""
  else if !text.any fun c => isControl c || c == '\'' then "'" ++ name ++ "'"
  else
    "\"" ++ String.join (text.map fun c =>
      if isControl c || c == '"' || c == '\\' then shownEscape c else String.ofList [c]) ++ "\""

end SolutionFlow.Document
