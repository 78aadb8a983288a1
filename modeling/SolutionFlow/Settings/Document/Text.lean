import SolutionFlow.Number.Digits
import SolutionFlow.Settings.Document.Reader

/-!
Blanks, line ends, comments, and the four forms of strings: in double quotes with escapes, in single
quotes as they stand, and both in three quotes, where they may run over many lines.
-/

namespace SolutionFlow.Document

open Reader

def isBlank (c : Char) : Bool := c == ' ' || c == '\t'

def isBeyondAscii (c : Char) : Bool := decide ('\x7f' < c)

/-- Whether a character may stand in a text of one line. -/
def isPrintable (c : Char) : Bool := c == '\t' || (' ' ≤ c && c != '\x7f')

def blanks : Reader Unit := do
  let _ ← run isBlank

def newline : Reader Unit := either (exactly ['\n']) (do exactly ['\r']; exactly ['\n'])

def comment : Reader Unit := do
  exactly ['#']
  let _ ← run isPrintable

/-- The end of a line, or of the text. -/
def lineEnd : Reader Unit := either newline finish

/-- What may follow at the end of a line. -/
def trailing : Reader Unit := do
  blanks
  let _ ← attempt comment
  lineEnd

/-- The character whose code point so many digits give. -/
def codePoint (count : Nat) : Reader Char :=
  judged (several count (Number.isDigitOf 16)) fun digits =>
    match Number.character? (Number.ofDigits 16 digits) with
    | some c => pure c
    | none => refuse (some .outOfRange)

/-- The fault of an escape that does not exist, behind its character, or at it if it is beyond
ASCII. -/
def unknownEscape (c : Char) : Reader Char := do
  if isBeyondAscii c then modify (c :: ·)
  commit <| named "escape sequence" <|
    expecting (["b", "f", "n", "r", "t", "u", "U", "\\", "\""].map mark) stop

/-- A backslash and what it makes of the characters behind it. -/
def escape : Reader Char := do
  exactly ['\\']
  match ← satisfying fun _ => true with
  | 'b' => return '\x08'
  | 'f' => return '\x0c'
  | 'n' => return '\n'
  | 'r' => return '\r'
  | 't' => return '\t'
  | '\\' => return '\\'
  | '"' => return '"'
  | 'u' => commit (named "unicode 4-digit hex code" (codePoint 4))
  | 'U' => commit (named "unicode 8-digit hex code" (codePoint 8))
  | c => unknownEscape c

def isBasicChar (c : Char) : Bool := isPrintable c && c != '"' && c != '\\'

def isLiteralChar (c : Char) : Bool := isPrintable c && c != '\''

/-- A string in double quotes. -/
def basicString : Reader (List Char) := do
  exactly ['"']
  let parts ← many (either (someOf isBasicChar) (List.singleton <$> escape))
  commit (named "basic string" (exactly ['"']))
  return parts.flatten

/-- A string in single quotes. -/
def literalString : Reader (List Char) := named "literal string" do
  exactly ['\'']
  commit do
    let found ← run isLiteralChar
    exactly ['\'']
    return found

/-- One or two quotes that stand in a long string, before something that is only looked at. -/
def innerQuotes {α : Type} (quote : Char) (behind : Reader α) : Reader (List Char) :=
  let quotes (count : Nat) : Reader (List Char) := do
    let found := List.replicate count quote
    exactly found
    let _ ← ahead behind
    return found
  either (quotes 2) (quotes 1)

/-- A string in three quotes, which may stand for one or two quotes more at its end. A line end
behind the opening quotes does not count. -/
def longString (label : String) (quote : Char) (content : Reader (List Char)) :
    Reader (List Char) := named label do
  let delimiter := List.replicate 3 quote
  exactly delimiter
  let _ ← attempt newline
  commit do
    let first ← many content
    let inner ← many (do
      let quotes ← innerQuotes quote content
      let parts ← many content
      return quotes ++ parts.flatten)
    let last ← attempt (innerQuotes quote (exactly delimiter))
    exactly delimiter
    return first.flatten ++ inner.flatten ++ last.getD []

/-- A line end in a long string, which is one character however it is written. -/
def lineBreak : Reader (List Char) := do
  newline
  return ['\n']

/-- A backslash at the end of a line takes it away, and all blanks and line ends that follow. -/
def joinedLine : Reader (List Char) := do
  exactly ['\\']
  blanks
  newline
  let _ ← many (either newline (do let _ ← someOf isBlank))
  return []

def longBasicString : Reader (List Char) :=
  longString "multiline basic string" '"'
    (either (someOf isBasicChar)
      (either joinedLine (either (List.singleton <$> escape) lineBreak)))

def longLiteralString : Reader (List Char) :=
  longString "multiline literal string" '\'' (either (someOf isLiteralChar) lineBreak)

/-- A string in any form. -/
def string : Reader String :=
  String.ofList <$>
    either longBasicString (either basicString (either longLiteralString literalString))

end SolutionFlow.Document
