import SolutionFlow.Algebra.Plan

/-!
The names of a plan. `bindingNames` are those that its solutions may bind; `varNames` are all that
occur in it, also where only an expression mentions them. As lists they may repeat a name;
`sortedNames` gives each once and in order.
-/

namespace SolutionFlow

/-- Each of the given names once, in order. -/
def sortedNames (names : List String) : List String :=
  (names.mergeSort fun a b => decide (a ≤ b)).eraseReps

namespace Plan

/-- The names that the solutions of a plan may bind. -/
def bindingNames : Plan → List String
  | .pattern p => Slot.variableNames p.slots
  | .external set => set.names
  | .zeroLengthPath ends => Slot.variableNames ends.slots
  | .arbitraryLengthPath ends _ _ => Slot.variableNames ends.slots
  | .inline names _ => names
  | .singleton | .empty => []
  | .root arg => arg.bindingNames
  | .project _ list => list.map (·.target)
  | .multiProject _ lists => lists.flatMap fun list => list.map (·.target)
  | .filter arg _ => arg.bindingNames
  | .extend arg elements => arg.bindingNames ++ elements.map (·.1)
  | .slice arg _ _ => arg.bindingNames
  | .distinct arg => arg.bindingNames
  | .reduced arg => arg.bindingNames
  | .group _ names elements => names ++ elements.map (·.1)
  | .order arg _ => arg.bindingNames
  | .service endpoint arg _ => arg.bindingNames ++ Slot.variableNames [endpoint]
  | .describe arg => arg.bindingNames
  | .join left right => left.bindingNames ++ right.bindingNames
  | .leftJoin left right _ => left.bindingNames ++ right.bindingNames
  | .union left right => left.bindingNames ++ right.bindingNames
  | .intersection left right =>
    left.bindingNames.filter fun name => right.bindingNames.contains name
  | .difference left _ => left.bindingNames

end Plan

mutual

/-- The names that an expression mentions, those in nested plans included. -/
def Expr.varNames : Expr → List String
  | .var name | .bound name => [name]
  | .constant _ | .now => []
  | .not arg | .str arg => arg.varNames
  | .and left right | .or left right => left.varNames ++ right.varNames
  | .compare _ left right | .arith _ left right => left.varNames ++ right.varNames
  | .aggregate call => call.varNames
  | .exists plan => plan.varNames

def Aggregate.varNames : Aggregate → List String
  | .mk _ _ none => []
  | .mk _ _ (some arg) => arg.varNames

/-- The names that occur in a plan. -/
def Plan.varNames : Plan → List String
  | .pattern p => Slot.variableNames p.slots
  | .external set => set.names
  | .zeroLengthPath ends => Slot.variableNames ends.slots
  | .arbitraryLengthPath ends path _ => Slot.variableNames ends.slots ++ path.varNames
  | .inline names _ => names
  | .singleton | .empty => []
  | .root arg => arg.varNames
  | .project arg list => list.map (·.source) ++ arg.varNames
  | .multiProject arg lists => (lists.flatMap fun list => list.map (·.source)) ++ arg.varNames
  | .filter arg condition => condition.varNames ++ arg.varNames
  | .extend arg elements => elementVarNames elements ++ arg.varNames
  | .slice arg _ _ => arg.varNames
  | .distinct arg => arg.varNames
  | .reduced arg => arg.varNames
  | .group arg names elements => names ++ aggregateVarNames elements ++ arg.varNames
  | .order arg keys => keyVarNames keys ++ arg.varNames
  | .service endpoint arg _ => Slot.variableNames [endpoint] ++ arg.varNames
  | .describe arg => arg.varNames
  | .join left right => left.varNames ++ right.varNames
  | .leftJoin left right none => left.varNames ++ right.varNames
  | .leftJoin left right (some condition) =>
    left.varNames ++ right.varNames ++ condition.varNames
  | .union left right => left.varNames ++ right.varNames
  | .intersection left right => left.varNames ++ right.varNames
  | .difference left right => left.varNames ++ right.varNames

def elementVarNames : List (String × Expr) → List String
  | [] => []
  | (_, x) :: rest => x.varNames ++ elementVarNames rest

def aggregateVarNames : List (String × Aggregate) → List String
  | [] => []
  | (_, call) :: rest => call.varNames ++ aggregateVarNames rest

def keyVarNames : List (Direction × Expr) → List String
  | [] => []
  | (_, x) :: rest => x.varNames ++ keyVarNames rest

end

end SolutionFlow
