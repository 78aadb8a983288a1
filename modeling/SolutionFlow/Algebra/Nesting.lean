import SolutionFlow.Algebra.Plan

/-!
How deep a plan is nested. An operator may evaluate a plan below it as a query of its own; that plan
is always nested less deep than the one that holds it.
-/

namespace SolutionFlow

mutual

/-- The height of an expression, nested plans included. -/
def Expr.depth : Expr → Nat
  | .var _ | .bound _ | .constant _ | .now => 1
  | .not arg | .str arg => arg.depth + 1
  | .and left right | .or left right => max left.depth right.depth + 1
  | .compare _ left right | .arith _ left right => max left.depth right.depth + 1
  | .aggregate call => call.depth + 1
  | .exists plan => plan.depth + 1

def Aggregate.depth : Aggregate → Nat
  | .mk _ _ none => 1
  | .mk _ _ (some arg) => arg.depth + 1

/-- The height of a plan, nested plans included. -/
def Plan.depth : Plan → Nat
  | .pattern _ | .external _ | .zeroLengthPath _ | .inline _ _ | .singleton | .empty => 1
  | .arbitraryLengthPath _ path _ => path.depth + 1
  | .root arg => arg.depth + 1
  | .project arg _ => arg.depth + 1
  | .multiProject arg _ => arg.depth + 1
  | .filter arg condition => max arg.depth condition.depth + 1
  | .extend arg elements => max arg.depth (elementDepth elements) + 1
  | .slice arg _ _ => arg.depth + 1
  | .distinct arg => arg.depth + 1
  | .reduced arg => arg.depth + 1
  | .group arg _ elements => max arg.depth (aggregateDepth elements) + 1
  | .order arg keys => max arg.depth (keyDepth keys) + 1
  | .service _ arg _ => arg.depth + 1
  | .describe arg => arg.depth + 1
  | .join left right => max left.depth right.depth + 1
  | .leftJoin left right none => max left.depth right.depth + 1
  | .leftJoin left right (some condition) =>
    max (max left.depth right.depth) condition.depth + 1
  | .union left right => max left.depth right.depth + 1
  | .intersection left right => max left.depth right.depth + 1
  | .difference left right => max left.depth right.depth + 1

def elementDepth : List (String × Expr) → Nat
  | [] => 0
  | (_, x) :: rest => max x.depth (elementDepth rest)

def aggregateDepth : List (String × Aggregate) → Nat
  | [] => 0
  | (_, call) :: rest => max call.depth (aggregateDepth rest)

def keyDepth : List (Direction × Expr) → Nat
  | [] => 0
  | (_, x) :: rest => max x.depth (keyDepth rest)

end

end SolutionFlow
