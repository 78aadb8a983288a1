import SolutionFlow.Settings.Document.Fault

/-!
Readers of text. A reader takes what it understands from the start of a text and leaves the rest, or
it fails at some place. After a failure that is not certain another reader may be tried from the
start.
-/

namespace SolutionFlow.Document

abbrev Reader := StateT (List Char) (Except Fault)

namespace Reader

variable {α β : Type}

/-- Fails where it stands. -/
def refuse (cause : Option Cause) : Reader α := fun text => .error { place := text, cause := cause }

/-- Fails where it stands, and tells nothing. -/
def stop : Reader α := refuse none

/-- Succeeds with what fits, and tells why something does not. -/
def settle : Except Cause α → Reader α
  | .ok a => pure a
  | .error cause => refuse (some cause)

/-- Makes each fault certain. -/
def commit (reader : Reader α) : Reader α := fun text =>
  (reader text).mapError fun fault => { fault with certain := true }

/-- Says what is being read, unless the fault has a narrower name for it. -/
def named (label : String) (reader : Reader α) : Reader α := fun text =>
  (reader text).mapError fun fault => { fault with label := fault.label.or (some label) }

/-- Says what could stand here. -/
def expecting (things : List String) (reader : Reader α) : Reader α := fun text =>
  (reader text).mapError fun fault => { fault with expected := fault.expected ++ things }

/-- Tries a second reader after a failure of the first one that is not certain. -/
def either (first second : Reader α) : Reader α := fun text =>
  match first text with
  | .error fault => if fault.certain then .error fault else second text
  | found => found

/-- Reads something, or nothing. -/
def attempt (reader : Reader α) : Reader (Option α) := either (some <$> reader) (pure none)

/-- Looks at what comes without taking it. A failure is reported where the look began. -/
def ahead (reader : Reader α) : Reader α := fun text =>
  match reader text with
  | .ok (found, _) => .ok (found, text)
  | .error fault => .error { fault with place := text }

/-- Reads something and judges it; a judgement against it is a fault at its start. -/
def judged (reader : Reader α) (judge : α → Reader β) : Reader β := fun text => do
  let (found, rest) ← reader text
  let (verdict, _) ← judge found text
  return (verdict, rest)

/-- Takes a step at most so many times, until one fails. -/
def iterate (step : α → Reader α) : Nat → α → Reader α
  | 0, a => pure a
  | fuel + 1, a => do
    match ← attempt (step a) with
    | some b => iterate step fuel b
    | none => return a

/-- Takes a step until one fails. Each step takes a character at least. -/
def exhaust (step : α → Reader α) (a : α) : Reader α := fun text =>
  iterate step (text.length + 1) a text

/-- Reads something as often as it comes. -/
def many (reader : Reader α) : Reader (List α) :=
  List.reverse <$> exhaust (fun found => (· :: found) <$> reader) []

/-- Reads something once or more often, with separators between. A separator that nothing follows is
left. -/
def separated (separator : Reader Unit) (reader : Reader α) : Reader (α × List α) := do
  let first ← reader
  let rest ← many (do separator; reader)
  return (first, rest)

/-- The next character, which is not taken; at the end of the text there is none. -/
def next : Reader (Option Char) := List.head? <$> get

/-- Takes a character of a class. -/
def satisfying (accept : Char → Bool) : Reader Char := fun text =>
  match text with
  | c :: rest => if accept c then .ok (c, rest) else stop text
  | [] => stop text

/-- Takes so many characters of a class. -/
def several (count : Nat) (accept : Char → Bool) : Reader (List Char) := fun text =>
  let found := text.take count
  if found.length = count ∧ found.all accept then .ok (found, text.drop count) else stop text

/-- Takes all characters of a class that come, perhaps none. -/
def run (accept : Char → Bool) : Reader (List Char) := fun text =>
  .ok (text.takeWhile accept, text.dropWhile accept)

/-- Takes all characters of a class that come, one at least. -/
def someOf (accept : Char → Bool) : Reader (List Char) := do
  let first ← satisfying accept
  let rest ← run accept
  return first :: rest

/-- Takes exactly these characters. -/
def exactly (word : List Char) : Reader Unit := fun text =>
  if word.isPrefixOf text then .ok ((), text.drop word.length) else stop text

/-- Takes nothing, at the end of the text only. -/
def finish : Reader Unit := fun text =>
  if text.isEmpty then .ok ((), []) else stop text

/-- The characters that a reader takes. -/
def taken (reader : Reader α) : Reader (List Char) := fun text => do
  let (_, rest) ← reader text
  return (text.take (text.length - rest.length), rest)

end Reader

end SolutionFlow.Document
