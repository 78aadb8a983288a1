import Mathlib
import SolutionFlow.Proofs.Expression.Coincidence
import SolutionFlow.Proofs.Flow.ReadingAlike

/-! Filters and the place of their query. The condition of a filter sees only the names of its argument in a
query of its own, and all names in one that is nested in an expression. Where conditions ask no nested
queries and mention none but the names of their arguments, this makes no difference. -/
namespace SolutionFlow

/-- Each filter has a condition that asks no nested query and mentions only names that its argument may
bind. Nothing is asked of plans behind EXISTS, in paths or for services: wherever the query stands, the
first two are nested in it, and the last is not evaluated here. -/
def Plan.FiltersInScope : Plan → Prop
  | .pattern _ | .external _ | .zeroLengthPath _ | .arbitraryLengthPath .. | .inline .. => True
  | .singleton | .empty | .service .. => True
  | .filter arg condition =>
    arg.FiltersInScope ∧ condition.ExistsFree ∧ ∀ name ∈ condition.varNames, name ∈ arg.bindingNames
  | .root arg | .project arg _ | .multiProject arg _ | .extend arg _ | .slice arg _ _ => arg.FiltersInScope
  | .distinct arg | .reduced arg | .group arg _ _ | .order arg _ | .describe arg => arg.FiltersInScope
  | .join left right | .leftJoin left right _ => left.FiltersInScope ∧ right.FiltersInScope
  | .union left right => left.FiltersInScope ∧ right.FiltersInScope
  | .intersection left right => left.FiltersInScope ∧ right.FiltersInScope
  | .difference left right => left.FiltersInScope ∧ right.FiltersInScope

/-- A condition in scope lets the same rows through, whether it sees the names of the argument or all. -/
theorem Filtering.alike_of_inScope {condition : Expr} {names : List String}
    (hFree : condition.ExistsFree) (hNames : ∀ name ∈ condition.varNames, name ∈ names) :
    Filtering.Alike ⟨condition, some names⟩ ⟨condition, none⟩ := fun _ row =>
  Expr.admits_congr hFree ((Solution.agreeOn_restrict row names).mono hNames)

/-- For plans with filters in scope, nested queries have the same solutions wherever they stand in
respect of expressions. -/
def Environment.IgnoresNesting (env : Environment) : Prop :=
  ∀ plan : Plan, plan.FiltersInScope → ∀ seed scope scope', scope.modifiers = scope'.modifiers →
    env.allItems plan seed scope = env.allItems plan seed scope'

namespace Plan

open Process

variable {env : Environment}

theorem start_matches (hEnv : env.IgnoresNesting) :
    (plan : Plan) → plan.FiltersInScope → ∀ (seed : Solution) (scope scope' : Scope),
      scope.modifiers = scope'.modifiers →
        (plan.start env seed scope).Matches (Alike env) (plan.start env seed scope')
  | .pattern _, _, _, _, _, _ => calling_matches _ rfl
  | .external _, _, _, _, _, _ => calling_matches _ rfl
  | .inline _ _, _, _, _, _, _ => calling_matches _ rfl
  | .zeroLengthPath _, _, _, _, _, _ => .refl (alike_refl env) _
  | .arbitraryLengthPath _ _ _, _, _, _, _, _ => .refl (alike_refl env) _
  | .singleton, _, _, _, _, _ => .refl (alike_refl env) _
  | .empty, _, _, _, _, _ => .refl (alike_refl env) _
  | .service _ _ _, _, _, _, _, _ => .refl (alike_refl env) _
  | .root arg, h, seed, scope, scope', hPlace =>
    .bind_same _ fun _ => arg.start_matches hEnv h seed _ _ rfl
  | .project arg _, h, seed, scope, scope', hPlace =>
    underOne_matches (.refl _) (arg.start_matches hEnv h seed _ _ rfl)
  | .multiProject arg _, h, seed, scope, scope', hPlace =>
    underOne_matches (.refl _) (arg.start_matches hEnv h seed _ _ rfl)
  | .filter arg condition, h, seed, scope, scope', hPlace => by
    refine underOne_matches (.filter ?_) (arg.start_matches hEnv h.1 seed _ _ rfl)
    have hSame := Filtering.alike_of_inScope h.2.1 h.2.2
    cases scope.nested <;> cases scope'.nested
    · exact fun _ _ => rfl
    · exact hSame
    · exact fun around row => (hSame around row).symm
    · exact fun _ _ => rfl
  | .extend arg _, h, seed, scope, scope', hPlace =>
    underOne_matches (.refl _) (arg.start_matches hEnv h seed _ _ rfl)
  | .slice arg offset limit, h, seed, scope, scope', hPlace => by
    simp only [start]
    split
    · exact .refl (alike_refl env) _
    · refine underOne_matches (.refl _) (arg.start_matches hEnv h seed _ _ ?_)
      simp only [Scope.enter, hPlace]
  | .distinct arg, h, seed, scope, scope', hPlace => by
    refine underOne_matches (.refl _) (arg.start_matches hEnv h seed _ _ ?_)
    simp only [Scope.enter, hPlace]
  | .reduced arg, h, seed, scope, scope', hPlace => by
    refine underOne_matches (.refl _) (arg.start_matches hEnv h seed _ _ ?_)
    simp only [Scope.enter, hPlace]
  | .group arg names elements, h, seed, scope, scope', hPlace => by
    simp only [start, callingOn]
    split
    · refine calling_matches _ ?_
      simp only [Leaf.group, hEnv arg h seed scope.descend scope'.descend rfl]
    · exact .refl (alike_refl env) _
  | .order arg keys, h, seed, scope, scope', hPlace => by
    refine underOne_matches (Operator.alike_of_eq ?_) (arg.start_matches hEnv h seed _ _ rfl)
    cases scope
    cases scope'
    cases hPlace
    cbv
  | .describe arg, h, seed, scope, scope', hPlace => by
    simp only [start, callingOn]
    split
    · refine calling_matches _ ?_
      simp only [Leaf.describe, hEnv arg h seed scope.descend scope'.descend rfl]
    · exact .refl (alike_refl env) _
  | .join left right, h, seed, scope, scope', hPlace =>
    have hSpawn row := right.start_matches hEnv h.2 row scope.descend scope'.descend rfl
    under_matches (.join ⟨_, rfl, hSpawn⟩) hSpawn (left.start_matches hEnv h.1 seed _ _ rfl)
  | .leftJoin left right condition, h, seed, scope, scope', hPlace => by
    have hSpawn row := right.start_matches hEnv h.2 row scope.descend scope'.descend rfl
    simp only [start]
    split
    · exact under_matches (.leftJoin ⟨_, rfl, hSpawn⟩) hSpawn
        (left.start_matches hEnv h.1 _ _ _ rfl)
    · exact underOne_matches (.refl _) (under_matches (.leftJoin ⟨_, rfl, hSpawn⟩) hSpawn
        (left.start_matches hEnv h.1 _ _ _ rfl))
  | .union left right, h, seed, scope, scope', hPlace =>
    underUnion_matches (left.start_matches hEnv h.1 seed _ _ rfl)
      (right.start_matches hEnv h.2 seed _ _ rfl)
  | .intersection left right, h, seed, scope, scope', hPlace =>
    have hSpawn row := left.start_matches hEnv h.1 row scope.descend scope'.descend rfl
    under_matches (.setFilter ⟨_, rfl, hSpawn⟩) hSpawn (right.start_matches hEnv h.2 seed _ _ rfl)
  | .difference left right, h, seed, scope, scope', hPlace =>
    have hSpawn row := left.start_matches hEnv h.1 row scope.descend scope'.descend rfl
    under_matches (.setFilter ⟨_, rfl, hSpawn⟩) hSpawn (right.start_matches hEnv h.2 seed _ _ rfl)

end Plan

namespace Evaluation

theorem ignoresNesting (e : Evaluation) (depth : Nat) : (e.environment depth).IgnoresNesting := by
  induction depth with
  | zero => exact fun _ _ _ _ _ _ => rfl
  | succ depth ih =>
      intro plan hScope seed scope scope' hPlace
      funext clock
      obtain ⟨hItems, hClock⟩ :=
        (e.launch_alike (plan.start_matches ih hScope seed scope scope' hPlace) clock).rest_eq e.patience
      exact Prod.ext hItems hClock

/-- Filters in scope do not tell whether their query is nested in an expression: from a seed, over a
store, with its jobs taking turns in any order, a plan leaves any consumer with the same rows, ends
and failures at the same times, and whoever reads it gets the same items. The reason is that what an
expression without nested queries comes to, be it a value or an error, depends only on what the names
that it mentions are bound to. -/
theorem nested_eq_root (e : Evaluation) {plan : Plan} (hScope : plan.FiltersInScope) (seed : Solution) :
    let env := e.environmentOf plan
    (∀ {σ : Type} (c : Consumer σ) (order : List Process.Appointment) (s : Clock × σ),
      Process.outcome env c (plan.start env seed .root) order s =
        Process.outcome env c (plan.start env seed .subquery) order s) ∧
    (∀ clock, (e.openAt plan seed .root clock).rest.1 =
      (e.openAt plan seed .subquery clock).rest.1) ∧
    ∀ (x : Expr), x.ExistsFree → ∀ (around around' : Surroundings) (row row' : Solution),
      (∀ name ∈ x.varNames, row.get? name = row'.get? name) →
        x.eval around row = x.eval around' row' := by
  intro env
  have hStart : (plan.start env seed .root).Matches (Process.Alike env) (plan.start env seed .subquery) :=
    plan.start_matches (e.ignoresNesting plan.depth) hScope seed .root .subquery rfl
  refine ⟨fun c order s => ?_, fun clock => ?_, fun x hFree around around' row row' hAgree =>
    x.eval_congr hFree hAgree⟩
  · have hOutcome := Process.outcome_eq_or_marked (fun p q path h => h.deliver path) hStart c.marks_none
      order s
    exact hOutcome.resolve_right id
  · exact ((e.launch_alike hStart clock).rest_eq e.patience).1

/-- A filter of a table lets its row through by a name of the table, although the seed binds a name that
it sees in a nested query only. -/
theorem nested_eq_root_bound :
    let e : Evaluation := ⟨⟨.empty, .standard, none, none, none, none⟩, 1, .unlimited 0, 5⟩
    let plan : Plan := .filter (.inline ["x"] [.ofList [("x", .integer 1)]]) (.bound "x")
    let seed : Solution := .ofList [("y", .integer 2)]
    plan.FiltersInScope ∧
    (e.openAt plan seed .root (.starting 0)).rest.1 =
      [.ok (.ofList [("x", .integer 1), ("y", .integer 2)])] ∧
    (e.openAt plan seed .subquery (.starting 0)).rest.1 =
      [.ok (.ofList [("x", .integer 1), ("y", .integer 2)])] := by
  intro e plan seed
  have hScope : plan.FiltersInScope := ⟨trivial, trivial, by simp [Expr.varNames, Plan.bindingNames]⟩
  have hRoot : (e.openAt plan seed .root (.starting 0)).rest.1 =
      [.ok (.ofList [("x", .integer 1), ("y", .integer 2)])] := by
    cbv
  exact ⟨hScope, hRoot, hRoot ▸ ((nested_eq_root e hScope seed).2.1 (.starting 0)).symm⟩

end Evaluation

end SolutionFlow
