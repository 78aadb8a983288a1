import SolutionFlow.Error.Duration
import SolutionFlow.Spill.Options

/-!
The settings of the library, their standard values, and what follows from them.
-/

namespace SolutionFlow

/-- Settings of evaluations. A time limit of zero is none, and zero worker threads leave their
number to the machine. -/
structure EvaluationSettings where
  queryTimeoutSeconds : Nat
  queueCapacity : Nat
  pollIntervalMilliseconds : Nat
  workerThreads : Nat
deriving DecidableEq

/-- Settings of what is moved to disk. Without a directory the one of the system is used. -/
structure SpillSettings where
  memoryThreshold : Nat
  directory : Option String
deriving DecidableEq

inductive LogFormat where
  | text
  | json
deriving DecidableEq

structure LoggingSettings where
  level : String
  format : LogFormat
deriving DecidableEq

structure Settings where
  evaluation : EvaluationSettings
  spill : SpillSettings
  logging : LoggingSettings
deriving DecidableEq

namespace EvaluationSettings

def standard : EvaluationSettings := ⟨0, 1000, 100, 0⟩

/-- The time limit of a query, if there is one. -/
def queryTimeout (s : EvaluationSettings) : Option Duration :=
  if s.queryTimeoutSeconds = 0 then none else some (.ofSeconds s.queryTimeoutSeconds)

/-- The number of worker threads, unless it is left to the machine. -/
def workerCount? (s : EvaluationSettings) : Option Nat :=
  if s.workerThreads = 0 then none else some s.workerThreads

/-- The time limit of an evaluation: the given one, or else that of the settings. A given limit of
zero is none. -/
def timeLimit (s : EvaluationSettings) (given : Option Duration) : Option Duration :=
  match given with
  | some d => if d.nanoseconds = 0 then none else some d
  | none => s.queryTimeout

end EvaluationSettings

namespace SpillSettings

def standard : SpillSettings := ⟨10000, none⟩

/-- How stores use the disk, given which directories there are. -/
def options (s : SpillSettings) (isDirectory : String → Bool) : SpillOptions :=
  ⟨s.memoryThreshold, s.directory.all isDirectory⟩

end SpillSettings

namespace LogFormat

def name : LogFormat → String
  | .text => "text"
  | .json => "json"

end LogFormat

namespace LoggingSettings

def standard : LoggingSettings := ⟨"info", .text⟩

end LoggingSettings

namespace Settings

def standard : Settings := ⟨.standard, .standard, .standard⟩

end Settings

end SolutionFlow
