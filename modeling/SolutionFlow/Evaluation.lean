import SolutionFlow.Algebra.Nesting
import SolutionFlow.Cursor
import SolutionFlow.Flow.Recorder

/-!
Evaluations: plans over a store, either read row by row or pushed to a consumer.

Plans within plans are evaluated as queries of their own, with the same collaborators and the same
time limit. One that is asked for its first solution is stopped together with the query around it. As
such a plan is nested less deep than the one around it, the depth of a plan bounds how many queries
stand around each other.
-/

namespace SolutionFlow

/-- What evaluations have in common: collaborators, the length of the queues, the time limit with
the start from which it counts, and how many steps a query may make without a result. -/
structure Evaluation where
  collaborators : Collaborators
  queueCapacity : Nat
  deadline : Deadline
  patience : Nat

namespace Evaluation

/-- Starts a plan behind a bridge. -/
def launchOn (e : Evaluation) (bridge : Bridge) (env : Environment) (plan : Plan) (seed : Solution)
    (scope : Scope) (clock : Clock) : Cursor :=
  let (activity, bridge, clock) := bridge.play clock (plan.start env seed scope)
  ⟨clock, e.deadline, bridge, activity⟩

/-- Starts a plan behind a bridge of its own. -/
def launch (e : Evaluation) (env : Environment) (plan : Plan) (seed : Solution) (scope : Scope)
    (clock : Clock) : Cursor :=
  e.launchOn (.new e.queueCapacity) env plan seed scope clock

/-- The answer of a query that is asked for its first solution only. -/
def firstOf : Option Item → Except QueryError (Option Solution)
  | none => .ok none
  | some item => item.map some

/-- What the operators of a plan work with, where plans are nested at most so deep. -/
def environment (e : Evaluation) : Nat → Environment
  | 0 =>
    { e.collaborators with
      firstSolution := fun _ _ _ => return .ok none
      allItems := fun _ _ _ => return [] }
  | depth + 1 =>
    let env := environment e depth
    { e.collaborators with
      firstSolution := fun gone plan seed clock =>
        let bridge := Bridge.within e.queueCapacity gone
        let (item, c) := (e.launchOn bridge env plan seed .subquery clock).next env e.patience
        (firstOf item, c.clock)
      allItems := fun plan seed scope clock =>
        let (items, c) := (e.launch env plan seed scope clock).rest env e.patience
        (items, c.clock) }

/-- What the operators of a plan work with. -/
def environmentOf (e : Evaluation) (plan : Plan) : Environment := e.environment plan.depth

/-- Lets the jobs of a process make their steps until none is left, and gives the time and what the
consumer has become. Each job begins its step when it is ready, however long others take. -/
def exhaust {σ : Type} (env : Environment) (consumer : Consumer σ) :
    Nat → Process → Clock × σ → Clock × σ
  | 0, _, s => s
  | patience + 1, process, (clock, s) =>
    match process.earliest with
    | none => (clock, s)
    | some appointment =>
      let (process, after, s) :=
        (process.deliver env appointment.path).deliver consumer
          ({ clock with time := appointment.time }, s)
      exhaust env consumer patience process
        ({ after with time := max clock.time after.time }, s)

/-- Pushes the solutions of a plan to a consumer, and gives the time and what the consumer has
become when all is over. -/
def push {σ : Type} (e : Evaluation) (consumer : Consumer σ) (plan : Plan) (seed : Solution)
    (s : Clock × σ) : Clock × σ :=
  let env := e.environmentOf plan
  let (process, s) := (plan.start env seed .root).deliver consumer s
  exhaust env consumer e.patience process s

end Evaluation

/-- A plan whose solutions are read one by one. -/
structure Query where
  evaluation : Evaluation
  plan : Plan
  cursor : Cursor

namespace Evaluation

/-- Opens a plan for reading, in the given place. -/
def openAt (e : Evaluation) (plan : Plan) (seed : Solution) (scope : Scope) (clock : Clock) :
    Query :=
  ⟨e, plan, e.launch (e.environmentOf plan) plan seed scope clock⟩

end Evaluation

namespace Query

/-- The next solution or failure, if there is one. -/
def next (q : Query) : Option Item × Query :=
  let (item, cursor) :=
    q.cursor.next (q.evaluation.environmentOf q.plan) q.evaluation.patience
  (item, { q with cursor := cursor })

/-- All further solutions and failures. -/
def rest (q : Query) : List Item × Query :=
  let (items, cursor) :=
    q.cursor.rest (q.evaluation.environmentOf q.plan) q.evaluation.patience
  (items, { q with cursor := cursor })

def close (q : Query) : Query := { q with cursor := q.cursor.close }

def isClosed (q : Query) : Bool := q.cursor.isClosed

end Query

end SolutionFlow
