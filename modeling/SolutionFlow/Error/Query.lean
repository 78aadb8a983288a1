import SolutionFlow.Error.Duration

/-!
What can end the evaluation of a query. Failures that follow the first one are kept with it but
hidden behind it.
-/

namespace SolutionFlow

/-- Why a store that may use the disk refuses an operation. -/
inductive SpillError where
  | io (reason : String)
  | encoding (reason : String)
  | closed
deriving DecidableEq

/-- A time limit and the time that has passed it. -/
structure Overrun where
  limit : Duration
  elapsed : Duration
deriving DecidableEq

/-- A failure of a query as a whole. -/
inductive QueryError where
  | unsupported (what : String)
  | evaluation (what : String)
  | spill (error : SpillError)
  | timeout (overrun : Overrun)
  | interrupted (what : String)
  | chained (first : QueryError) (suppressed : List QueryError)

namespace SpillError

def message : SpillError → String
  | .io reason => "I/O error: " ++ reason
  | .encoding reason => "Encoding error: " ++ reason
  | .closed => "Spill structure is closed"

end SpillError

namespace Overrun

def message (o : Overrun) : String :=
  "Query evaluation exceeded timeout of " ++ o.limit.display ++ " (ran for " ++
    o.elapsed.display ++ ")"

end Overrun

namespace QueryError

def message : QueryError → String
  | .unsupported what => "Unsupported tuple expression: " ++ what
  | .evaluation what => "Evaluation error: " ++ what
  | .spill error => "Spill error: " ++ error.message
  | .timeout overrun => "Query timeout: " ++ overrun.message
  | .interrupted what => "Evaluation interrupted: " ++ what
  | .chained first suppressed =>
    first.message ++ " (" ++ toString suppressed.length ++ " suppressed)"

/-- The failure that came first. -/
def root : QueryError → QueryError
  | .chained first _ => first.root
  | error => error

/-- The failures kept behind the first one. -/
def suppressed : QueryError → List QueryError
  | .chained _ suppressed => suppressed
  | _ => []

/-- The first failure together with the later ones, if there are any. -/
def withSuppressed (first : QueryError) (later : List QueryError) : QueryError :=
  if later.isEmpty then first else .chained first later

/-- An operator of this kind needs a collaborator that the evaluation does not have. -/
def missing (kind collaborator : String) : QueryError :=
  .unsupported (kind ++ " requires a " ++ collaborator)

/-- A collaborator called by an operator of this kind broke off. -/
def panicked (kind reason : String) : QueryError :=
  .evaluation (kind ++ " evaluation panicked: " ++ reason)

/-- The variable that should name a service has no value. -/
def unboundService (name : String) : QueryError :=
  .evaluation ("SERVICE variable ?" ++ name ++ " is not bound")

end QueryError

end SolutionFlow
