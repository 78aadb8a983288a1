import SolutionFlow.Dataset
import SolutionFlow.Expression.Grouping
import SolutionFlow.Flow.Emission
import SolutionFlow.Flow.Scope
import SolutionFlow.Spill.Options

/-!
What the operators of a running query work with: the store, the settings of what may go to disk,
those who answer for paths, groups, descriptions and services, and the answers of nested queries.
-/

namespace SolutionFlow

/-- Evaluates groups: the rows of a grouping over its input, on top of the seed. -/
abbrev GroupEvaluator :=
  Grouping → Surroundings → Solution → List Item → ExceptT QueryError Timed (List Solution)

/-- Describes the resources that some rows mention. -/
abbrev DescribeEvaluator := Solution → List Item → Except QueryError (List Solution)

/-- Calls the service of the given name with a plan and the bindings at hand. -/
abbrev ServiceCaller := Term → Plan → Solution → Call

/-- Finds paths: those of length zero from or to a known end, and those that repeat a plan, whose
solutions it may ask for. -/
structure PathFinder where
  zeroLength : PathEnds → Option Term → Option Term → Solution → Call
  arbitraryLength :
    PathEnds → Plan → Nat → Solution → (Plan → Solution → Timed (List Item)) → Timed Call

/-- Who and what a query works with. -/
structure Collaborators where
  dataset : Dataset
  spill : SpillOptions
  group : Option GroupEvaluator
  describe : Option DescribeEvaluator
  service : Option ServiceCaller
  path : Option PathFinder

/-- The collaborators, together with those who run nested queries. `firstSolution` answers such a
query by its first solution, and `allItems` by all of them up to the first failure. The former is
asked in the middle of an emission, when the consumer may be gone, and is told whether it is. -/
structure Environment extends Collaborators where
  firstSolution : Bool → Plan → Solution → Timed (Except QueryError (Option Solution))
  allItems : Plan → Solution → Scope → Timed (List Item)

namespace Environment

/-- What expressions may ask for. -/
def surroundings (env : Environment) : Surroundings := ⟨env.firstSolution false⟩

/-- What expressions may ask for, whether or not the consumer is gone. -/
def surroundingsIf (env : Environment) (gone : Bool) : Surroundings := ⟨env.firstSolution gone⟩

@[simp]
theorem surroundingsIf_false (env : Environment) : env.surroundingsIf false = env.surroundings := rfl

end Environment

/-- Does something in time that may ask for nested queries. They are linked to the query around
them, and so to its consumer. -/
def Emission.asking {α : Type} (env : Environment) (act : Surroundings → Timed α) : Emission α := do
  let gone ← isGone
  timed (act (env.surroundingsIf gone))

end SolutionFlow
