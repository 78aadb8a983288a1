import SolutionFlow.Flow.Job
import SolutionFlow.Solution.Merge

/-!
The calls that the leaves of a query make. Each is written for a plan and the seed it is evaluated
on, and made when its job comes to it. The store is a dataset in memory, which never fails: neither the
call for the statements of a pattern nor what comes of it is an error.
-/

namespace SolutionFlow

namespace Call

/-- The same call, but in place of a failure it gives the seed. -/
def orSeed (seed : Solution) (call : Call) : Call :=
  match call.result with
  | .failed _ => { call with result := .opened (.ofRows [seed]) }
  | _ => call

/-- A call for rows that are computed in time. -/
def ofTimed (rows : ExceptT QueryError Timed (List Solution)) : Timed Call :=
  (fun outcome => .ofExcept (outcome.map .ofRows)) <$> rows.run

end Call

namespace Leaf

/-- The statements of the store that match a pattern. -/
def pattern (p : QuadPattern) (seed : Solution) (env : Environment) : Call :=
  .ofRows (p.solutions env.dataset seed)

/-- The rows of an inline table. From an empty seed all of them are taken as they are. -/
def inline (rows : List Solution) (seed : Solution) : Call :=
  .ofRows (if seed.isEmpty then rows else rows.filterMap seed.assign?)

/-- The groups of a plan's solutions. -/
def group (evaluator : GroupEvaluator) (grouping : Grouping) (arg : Plan) (seed : Solution)
    (scope : Scope) (env : Environment) : Timed Call := do
  let items ← env.allItems arg seed scope
  Call.ofTimed (evaluator grouping env.surroundings seed items)

/-- The description of a plan's solutions. -/
def describe (evaluator : DescribeEvaluator) (arg : Plan) (seed : Solution) (scope : Scope)
    (env : Environment) : Timed Call := do
  let items ← env.allItems arg seed scope
  return .ofExcept ((evaluator seed items).map .ofRows)

/-- The paths that repeat a plan. -/
def arbitraryLength (finder : PathFinder) (ends : PathEnds) (path : Plan) (minLength : Nat)
    (seed : Solution) (env : Environment) : Timed Call :=
  finder.arbitraryLength ends path minLength seed fun plan bindings =>
    env.allItems plan bindings .subquery

/-- The answer of a service. A silent one answers with the seed when the call fails. -/
def service (caller : ServiceCaller) (endpoint : Term) (arg : Plan) (silent : Bool)
    (seed : Solution) : Call :=
  let call := caller endpoint arg seed
  if silent then call.orSeed seed else call

end Leaf

end SolutionFlow
