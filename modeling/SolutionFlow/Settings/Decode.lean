import SolutionFlow.Settings.Basic
import SolutionFlow.Settings.Value

/-!
From values to settings: what each setting has to be, and what is wrong with a value that it cannot
be. A section is given by a table, whose entries are looked at in the order of their names, or by a
sequence, whose values are those of its fields in their own order. Names that are not settings are
ignored, and a setting that is not given keeps its standard value.
-/

namespace SolutionFlow

/-- What is wrong with a value. -/
inductive SettingFault where
  | wrongType (found : Setting) (expected : String)
  | wrongValue (found : Setting) (expected : String)
  | unknownVariant (found : String) (known : List String)
  | unreadable (what : String)

/-- What is wrong, and the names that lead to the value. -/
structure SettingError where
  fault : SettingFault
  path : List String

namespace SettingFault

/-- A choice between names in their quotes. -/
def alternatives (names : List String) : String :=
  String.intercalate " or " (names.map fun n => "\x60" ++ n ++ "\x60")

def message : SettingFault → String
  | .wrongType found expected =>
    "invalid type: found " ++ found.describe ++ ", expected " ++ expected
  | .wrongValue found expected => "invalid value " ++ found.describe ++ ", expected " ++ expected
  | .unknownVariant found known =>
    "unknown variant: found \x60" ++ found ++ "\x60, expected \x60" ++ alternatives known ++ "\x60"
  | .unreadable what => what

/-- A fault of the value itself that is looked at. -/
def here (fault : SettingFault) : SettingError := ⟨fault, []⟩

end SettingFault

/-- The same error, seen from one step further out. -/
def SettingError.within (step : String) (error : SettingError) : SettingError :=
  { error with path := step :: error.path }

namespace Decode

/-- A count of the given kind. -/
def count (kind : String) : Setting → Except SettingError Nat
  | .unsigned n => .ok n
  | .signed i =>
    if 0 ≤ i then .ok i.toNat else .error (SettingFault.wrongValue (.signed i) kind).here
  | found => .error (SettingFault.wrongType found kind).here

/-- A text of the given kind; a character will do. -/
def text (kind : String) : Setting → Except SettingError String
  | .text s => .ok s
  | .character c => .ok (String.ofList [c])
  | found => .error (SettingFault.wrongType found kind).here

def formatNamed (name : String) : Except SettingError LogFormat :=
  if name = "text" then .ok .text
  else if name = "json" then .ok .json
  else .error (SettingFault.unknownVariant name ["text", "json"]).here

/-- A format of the log, by its name. In a table the first name is taken; formats have no contents,
so that whatever stands under the name is wrong. -/
def format : Setting → Except SettingError LogFormat
  | .text name => formatNamed name
  | .table entries =>
    match Setting.inOrder entries with
    | [] => .error (SettingFault.wrongType (.table []) "enum").here
    | (name, value) :: _ =>
      ((formatNamed name).bind fun _ => .error (SettingFault.wrongType value "unit").here).mapError
        (SettingError.within name)
  | found => .error (SettingFault.wrongType found "enum LogFormat").here

variable {σ α : Type}

/-- A field of a section: its name, and how a value is put there. -/
structure Field (σ : Type) where
  name : String
  assign : Setting → σ → Except SettingError σ

namespace Field

/-- A field that is set to what a reader makes of a value. -/
def ofReader (name : String) (read : Setting → Except SettingError α) (set : σ → α → σ) : Field σ :=
  ⟨name, fun value section_ => (read value).map (set section_)⟩

/-- Puts the values of entries into the fields of their names. -/
def ofEntries (fields : List (Field σ)) (standard : σ) (entries : List (String × Setting)) :
    Except SettingError σ :=
  (Setting.inOrder entries).foldlM
    (fun found (name, value) =>
      match fields.find? (·.name == name) with
      | some field => (field.assign value found).mapError (SettingError.within name)
      | none => .ok found)
    standard

/-- Puts values into the fields in their order; errors tell the place of a value by its number. -/
def ofValues (fields : List (Field σ)) (standard : σ) (values : List Setting) :
    Except SettingError σ :=
  (fields.zip values).zipIdx.foldlM
    (fun found ((field, value), i) =>
      (field.assign value found).mapError (SettingError.within (toString i)))
    standard

/-- Reads a section of the given kind. -/
def read (kind : String) (fields : List (Field σ)) (standard : σ) :
    Setting → Except SettingError σ
  | .table entries => ofEntries fields standard entries
  | .sequence values => ofValues fields standard values
  | found => .error (SettingFault.wrongType found ("struct " ++ kind)).here

end Field

def evaluationFields : List (Field EvaluationSettings) :=
  [.ofReader "query_timeout_secs" (count "u64") fun s n => { s with queryTimeoutSeconds := n },
   .ofReader "queue_capacity" (count "usize") fun s n => { s with queueCapacity := n },
   .ofReader "poll_interval_ms" (count "u64") fun s n => { s with pollIntervalMilliseconds := n },
   .ofReader "worker_threads" (count "usize") fun s n => { s with workerThreads := n }]

def loggingFields : List (Field LoggingSettings) :=
  [.ofReader "level" (text "a string") fun s level => { s with level := level },
   .ofReader "format" format fun s format => { s with format := format }]

def spillFields : List (Field SpillSettings) :=
  [.ofReader "memory_threshold" (count "usize") fun s n => { s with memoryThreshold := n },
   .ofReader "temp_dir" (text "path string") fun s path => { s with directory := some path }]

def sections : List (Field Settings) :=
  [.ofReader "evaluation" (Field.read "EvaluationConfig" evaluationFields .standard)
    fun s evaluation => { s with evaluation := evaluation },
   .ofReader "spill" (Field.read "SpillConfig" spillFields .standard)
    fun s spill => { s with spill := spill },
   .ofReader "logging" (Field.read "LoggingConfig" loggingFields .standard)
    fun s logging => { s with logging := logging }]

end Decode

namespace Settings

/-- The settings that a table gives. The first fault is the outcome. -/
def ofEntries (entries : List (String × Setting)) : Except SettingError Settings :=
  Decode.Field.ofEntries Decode.sections .standard entries

end Settings

end SolutionFlow
