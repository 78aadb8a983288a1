import SolutionFlow.Number.Digits
import SolutionFlow.Number.Reading
import SolutionFlow.Settings.Value
import SolutionFlow.Text.Blank

/-!
Settings from environment variables. A variable counts if its name starts with that of the
application, in any case; what follows names a setting, with two underscores or a point between a
section and its field. The text of a variable is a value in a small notation; a text that is not in
it stands for itself.
-/

namespace SolutionFlow.Variables

/-- The rest of a list of characters behind a given start, which may differ in case. -/
def behind? : List Char → List Char → Option (List Char)
  | [], rest => some rest
  | _ :: _, [] => none
  | c :: start, d :: rest => if c.toLower = d.toLower then behind? start rest else none

/-- The parts of a name between points and double underscores, in lower case. -/
def splitName (part : List Char) : List Char → List String
  | [] => [String.ofList part.reverse]
  | '_' :: '_' :: rest => String.ofList part.reverse :: splitName [] rest
  | '.' :: rest => String.ofList part.reverse :: splitName [] rest
  | c :: rest => splitName (c.toLower :: part) rest

/-- Which setting a variable names. -/
def path? (application name : String) : Option (List String) := do
  let rest ← behind? (application.toList ++ ['_']) (Text.trimmed name.toList)
  let parts := splitName [] (Text.trimmed rest)
  if parts.any (·.isEmpty) then none else some parts

def isSeparator (c : Char) : Bool := [',', '{', '}', '[', ']'].contains c

def skipBlanks (text : List Char) : List Char := text.dropWhile Text.isAsciiBlank

/-- What a bare word stands for: a fraction if it has a point, else a whole number of the machine,
else itself. -/
def ofWord (word : List Char) : Setting :=
  match if word.contains '.' then Double.read? word else none with
  | some d => .float d
  | none =>
    match Decimal.int? word with
    | none => .text (String.ofList word)
    | some i =>
      if 0 ≤ i ∧ i < UInt64.size ∧ word.head? ≠ some '-' then .unsigned i.toNat
      else if Int64.minValue.toInt ≤ i ∧ i ≤ Int64.maxValue.toInt then .signed i
      else .text (String.ofList word)

/-- What stands before a closing quote, and what follows. A quote behind a backslash does not
close. -/
def untilQuote? : List Char → Option (List Char × List Char)
  | [] => none
  | '"' :: rest => some ([], rest)
  | '\\' :: c :: rest => (untilQuote? rest).map fun (inner, rest) => ('\\' :: c :: inner, rest)
  | c :: rest => (untilQuote? rest).map fun (inner, rest) => (c :: inner, rest)

/-- Whether a character may stand in quotes as itself. -/
def isPlain (c : Char) : Bool := c == '\t' || (' ' ≤ c && c != '\x7f')

/-- The character whose code point some digits give. -/
def codePoint? (digits : List Char) : Option Char :=
  if digits.all (Number.isDigitOf 16) then Number.character? (Number.ofDigits 16 digits) else none

/-- The characters that escapes of one letter stand for. -/
def shortEscape? : Char → Option Char
  | '"' => some '"'
  | '\\' => some '\\'
  | 'b' => some '\x08'
  | 'f' => some '\x0c'
  | 'n' => some '\n'
  | 'r' => some '\r'
  | 't' => some '\t'
  | _ => none

/-- Replaces escapes by what they stand for. -/
def unescape? : List Char → Option (List Char)
  | [] => some []
  | '\\' :: 'u' :: a :: b :: c :: d :: rest => do
    return (← codePoint? [a, b, c, d]) :: (← unescape? rest)
  | '\\' :: 'U' :: a :: b :: c :: d :: e :: f :: g :: h :: rest => do
    return (← codePoint? [a, b, c, d, e, f, g, h]) :: (← unescape? rest)
  | '\\' :: c :: rest => do
    return (← shortEscape? c) :: (← unescape? rest)
  | c :: rest =>
    if isPlain c && c != '\\' then (unescape? rest).map (c :: ·) else none

/-- The longest start of a text that has at most so many bytes. -/
def startWithin : Nat → List Char → List Char
  | _, [] => []
  | bytes, c :: rest =>
    if c.utf8Size ≤ bytes then c :: startWithin (bytes - c.utf8Size) rest else []

/-- The text that stands between quotes, which is not empty. Of what stands before the first escape
as many bytes are kept as it has characters. -/
def quoted? (inner : List Char) : Option (List Char) :=
  let plain := inner.takeWhile (· != '\\')
  let escaped := inner.dropWhile (· != '\\')
  if inner.isEmpty || !plain.all isPlain then none
  else if escaped.isEmpty then some plain
  else (unescape? escaped).map (startWithin plain.length plain ++ ·)

/-- Reads a text in quotes, behind the opening one. -/
def quotedText? (text : List Char) : Option (String × List Char) := do
  let (inner, rest) ← untilQuote? text
  let found ← quoted? inner
  return (String.ofList found, rest)

/-- The name of an entry, quoted or bare. -/
def entryName? (text : List Char) : Option (String × List Char) :=
  match text with
  | '"' :: rest => quotedText? rest
  | _ =>
    let isPart (c : Char) : Bool := c.isAlphanum || c == '_' || c == '-'
    let name := text.takeWhile isPart
    if name.isEmpty then none else some (String.ofList name, text.dropWhile isPart)

mutual

/-- Reads a value at the start of a text. -/
def value? : Nat → List Char → Option (Setting × List Char)
  | 0, _ => none
  | fuel + 1, text => do
    let (value, rest) ←
      match skipBlanks text with
      | 't' :: 'r' :: 'u' :: 'e' :: rest => some (.boolean true, rest)
      | 'f' :: 'a' :: 'l' :: 's' :: 'e' :: rest => some (.boolean false, rest)
      | '{' :: rest => (entries? fuel rest []).map fun (found, rest) => (.table found, rest)
      | '[' :: rest => (values? fuel rest).map fun (found, rest) => (.sequence found, rest)
      | '"' :: rest => (quotedText? rest).map fun (found, rest) => (.text found, rest)
      | '\'' :: c :: '\'' :: rest => some (.character c, rest)
      | '\'' :: _ => none
      | word =>
        some (ofWord (Text.trimmed (word.takeWhile fun c => !isSeparator c)),
          word.dropWhile fun c => !isSeparator c)
    return (value, skipBlanks rest)

/-- Reads the values of a sequence up to its closing bracket. Before a bracket that comes right
behind the opening one or a comma there is no value; blanks between them are an empty one. -/
def values? : Nat → List Char → Option (List Setting × List Char)
  | 0, _ => none
  | fuel + 1, text =>
    match text with
    | ']' :: rest => some ([], rest)
    | text => do
      let (value, rest) ← value? fuel text
      match rest with
      | ',' :: rest =>
        let (values, rest) ← values? fuel rest
        return (value :: values, rest)
      | ']' :: rest => return ([value], rest)
      | _ => none

/-- Reads the entries of a table up to its closing brace, with the same rule for the brace. -/
def entries? : Nat → List Char → List (String × Setting) →
    Option (List (String × Setting) × List Char)
  | 0, _, _ => none
  | fuel + 1, text, found =>
    match text with
    | '}' :: rest => some (found, rest)
    | text => do
      let (name, rest) ← entryName? (skipBlanks text)
      match skipBlanks rest with
      | '=' :: rest =>
        let (value, rest) ← value? fuel rest
        let found := Setting.putEntry name value found
        match rest with
        | ',' :: rest => entries? fuel rest found
        | '}' :: rest => return (found, rest)
        | _ => none
      | _ => none

end

/-- The value of a variable. A text that cannot be read to its end stands for itself. -/
def value (text : String) : Setting :=
  match value? (2 * text.length + 2) text.toList with
  | some (value, []) => value
  | _ => .text text

/-- A value under a path of names. -/
def nest (value : Setting) : List String → Setting
  | [] => value
  | name :: rest => .table [(name, nest value rest)]

/-- The settings that some variables give. -/
def entries (application : String) (vars : List (String × String)) :
    List (String × Setting) :=
  vars.foldl
    (fun found (name, text) =>
      match path? application name with
      | some (section_ :: rest) =>
        Setting.layerEntries found [(section_, nest (value text) rest)]
      | _ => found)
    []

end SolutionFlow.Variables
