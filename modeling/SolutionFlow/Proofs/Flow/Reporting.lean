import SolutionFlow.Flow.Operator.Joins
import SolutionFlow.Flow.Operator.Rows
import SolutionFlow.Flow.Recorder
import SolutionFlow.Proofs.Expression.Failures

/-! What becomes of a failed query in the expressions of an operator. A filter, a left join and an extension
report it to their consumer and refuse the row, unless the expression has lost it. -/
namespace SolutionFlow

variable {σ τ : Type} {env : Environment} {c : Consumer σ} {now : Clock × σ}

namespace Expr

variable {around : Surroundings} {row : Solution} {x : Expr} {clock : Clock} {error : QueryError}

/-- A failure that is met and not lost ends the evaluation. -/
theorem failed_of_meets (hMeets : ∃ error, x.Meets around row error clock)
    (hKeeps : ¬x.Loses around row clock) :
    ∃ error, x.Meets around row error clock ∧
      ((x.eval around row).run clock).1 = .error (.query error) := by
  obtain ⟨error, hEnds⟩ := (x.accounts_eval clock).iff.mp hMeets |>.resolve_right hKeeps
  exact ⟨error, (x.accounts_eval clock).ends_met error hEnds, hEnds⟩

theorem run_settled {α : Type} (x : Evaluating α) (clock : Clock) :
    ((ExceptT.mk (settle <$> x.run)).run clock).1 = settle (x.run clock).1 := rfl

theorem value?_eq_error (h : ((x.eval around row).run clock).1 = .error (.query error)) :
    ((x.value? around row).run clock).1 = .error error := by
  rw [value?, run_settled, h, settle]

theorem admits_eq_error (h : ((x.eval around row).run clock).1 = .error (.query error)) :
    ((x.admits around row).run clock).1 = .error error := by
  have hHolds : ((x.holds around row).run clock).1 = .error (.query error) := by
    rw [holds, truthOf, Timed.run_bind, h]
  rw [admits, ← bind_pure_comp, Timed.run_bind, run_settled, hHolds, settle]

end Expr

namespace Emission

/-- An operator answers a row with the report of one of the given errors, and refuses it. -/
def Reports (c : Consumer σ) (now : Clock × σ) (errors : QueryError → Prop) (s : τ)
    (answer : Emission (Bool × τ)) : Prop :=
  ∃ error clock, errors error ∧ answer.deliver c now = ((false, s), clock, c.fail now.2 error)

theorem reports_of_asking {α : Type} {act : Surroundings → Timed (Except QueryError α)}
    {next : Except QueryError α → Emission (Bool × τ)} {errors : QueryError → Prop} {s : τ}
    (hFails : ∃ error, errors error ∧
      (act (env.surroundingsIf (c.gone now.2)) now.1).1 = .error error)
    (hNext : ∀ error, next (.error error) = do
      report error
      return (false, s)) :
    (asking env act >>= next).Reports c now errors s := by
  obtain ⟨error, hError, hAct⟩ := hFails
  refine ⟨error, (act (env.surroundingsIf (c.gone now.2)) now.1).2, hError, ?_⟩
  change (next (act (env.surroundingsIf (c.gone now.2)) now.1).1).deliver c
    ((act (env.surroundingsIf (c.gone now.2)) now.1).2, now.2) = _
  rw [hAct, hNext]
  rfl

end Emission

theorem Filtering.reports (s : Filtering) (row : Solution) :
    let around := env.surroundingsIf (c.gone now.2)
    (∃ error, s.condition.Meets around (s.view row) error now.1) →
    ¬s.condition.Loses around (s.view row) now.1 →
    ((pipe env).onRow s row).Reports c now (s.condition.Meets around (s.view row) · now.1) s := by
  intro around hMeets hKeeps
  obtain ⟨error, hError, hEnds⟩ := Expr.failed_of_meets hMeets hKeeps
  exact Emission.reports_of_asking ⟨error, hError, Expr.admits_eq_error hEnds⟩ fun _ => rfl

namespace Extending

/-- Bindings are computed one after another. -/
theorem extend_append (around : Surroundings) (row : Solution) (before after : List (String × Expr)) :
    extend around row (before ++ after) = extend around row before >>= (extend around · after) := by
  induction before generalizing row with
  | nil => rfl
  | cons element rest ih =>
      obtain ⟨name, x⟩ := element
      rw [List.cons_append, extend, extend]
      split
      · exact ih row
      · rw [bind_assoc]
        refine congrArg _ (funext fun value => ?_)
        cases value with
        | some term => exact ih _
        | none => exact ih _

theorem reports {before after : List (String × Expr)} {name : String} {x : Expr}
    {row extended : Solution} {later : Clock} (hPlain : x.isAggregate = false) :
    let around := env.surroundingsIf (c.gone now.2)
    (extend around row before).run now.1 = (.ok extended, later) →
    (∃ error, x.Meets around extended error later) → ¬x.Loses around extended later →
    ((pipe env).onRow ⟨before ++ (name, x) :: after⟩ row).Reports c now
      (x.Meets around extended · later) ⟨before ++ (name, x) :: after⟩ := by
  intro around hBefore hMeets hKeeps
  obtain ⟨error, hError, hEnds⟩ := Expr.failed_of_meets hMeets hKeeps
  refine Emission.reports_of_asking ⟨error, hError, ?_⟩ fun _ => rfl
  rw [extend_append, Timed.run_bind, hBefore]
  dsimp only
  rw [extend, if_neg (by simp [hPlain]), Timed.run_bind, Expr.value?_eq_error hEnds]

end Extending

theorem LeftJoining.reports (s : LeftJoining) (k : Nat) (row : Solution) {condition : Expr}
    (hCondition : s.condition = some condition) (hStopped : s.completion.stopped = false) :
    let around := env.surroundingsIf (c.gone now.2)
    (∃ error, condition.Meets around (row.restrict s.visible) error now.1) →
    ¬condition.Loses around (row.restrict s.visible) now.1 →
    ((branchPipe env k).onRow s row).Reports c now
      (condition.Meets around (row.restrict s.visible) · now.1) s := by
  intro around hMeets hKeeps
  obtain ⟨error, hError, hEnds⟩ := Expr.failed_of_meets hMeets hKeeps
  simp only [branchPipe, onBranchRow, hStopped, Bool.false_eq_true, if_false]
  refine Emission.reports_of_asking ⟨error, hError, ?_⟩ fun _ => rfl
  simp only [admits, hCondition]
  exact Expr.admits_eq_error hEnds

/-- An expression fails with a query only if it has met its failure. If it has met one, it fails with a query,
or else it has lost one: some conjunction or disjunction that it evaluates is settled by its other
operand, or ends with an error of the type from its left operand. A filter, a left join and an
extension report the failure and refuse the row wherever none is lost. -/
theorem Expr.failures_reported_or_lost (x : Expr) (row : Solution) :
    (∀ (around : Surroundings) (clock : Clock),
      (∀ error, ((x.eval around row).run clock).1 = .error (.query error) →
        x.Meets around row error clock) ∧
      ((∃ error, x.Meets around row error clock) ↔
        Failed ((x.eval around row).run clock).1 ∨ x.Loses around row clock)) ∧
    ∀ (env : Environment) {σ : Type} (c : Consumer σ) (now : Clock × σ),
      let around := env.surroundingsIf (c.gone now.2)
      (∀ visible,
        let s : Filtering := ⟨x, visible⟩
        (∃ error, x.Meets around (s.view row) error now.1) → ¬x.Loses around (s.view row) now.1 →
        ((Filtering.pipe env).onRow s row).Reports c now (x.Meets around (s.view row) · now.1) s) ∧
      (∀ (s : LeftJoining) (k : Nat), s.condition = some x → s.completion.stopped = false →
        (∃ error, x.Meets around (row.restrict s.visible) error now.1) →
        ¬x.Loses around (row.restrict s.visible) now.1 →
        ((LeftJoining.branchPipe env k).onRow s row).Reports c now
          (x.Meets around (row.restrict s.visible) · now.1) s) ∧
      (∀ (before after : List (String × Expr)) (name : String) (extended : Solution) (later : Clock),
        (Extending.extend around row before).run now.1 = (.ok extended, later) →
        x.isAggregate = false →
        (∃ error, x.Meets around extended error later) → ¬x.Loses around extended later →
        ((Extending.pipe env).onRow ⟨before ++ (name, x) :: after⟩ row).Reports c now
          (x.Meets around extended · later) ⟨before ++ (name, x) :: after⟩) := by
  refine ⟨fun around clock => ?_, fun env σ c now => ⟨?_, ?_, ?_⟩⟩
  · exact ⟨(x.accounts_eval clock).ends_met, (x.accounts_eval clock).iff⟩
  · exact fun visible hMeets hKeeps => Filtering.reports ⟨x, visible⟩ row hMeets hKeeps
  · exact fun s k hCondition hStopped hMeets hKeeps =>
      s.reports k row hCondition hStopped hMeets hKeeps
  · exact fun _ _ _ _ _ hBefore hPlain hMeets hKeeps =>
      Extending.reports hPlain hBefore hMeets hKeeps

/-- A filter, a left join and an extension above a nested query that fails. -/
theorem Expr.failures_reported_exists :
    let env : Environment :=
      { dataset := .empty, spill := .standard, group := none, describe := none, service := none,
        path := none, firstSolution := fun _ _ _ => return .error (.interrupted "stop"),
        allItems := fun _ _ _ => return [] }
    let x : Expr := .exists .singleton
    let now : Clock × Recorder := (.starting 0, .new none none)
    let filter : Filtering := ⟨x, none⟩
    let leftJoin : LeftJoining := ⟨.empty, some x, [], .root, .new 1, []⟩
    let extension : Extending := ⟨[("y", .constant (.integer 1)), ("z", x)]⟩
    let errors : QueryError → Prop := (x.Meets env.surroundings .empty · now.1)
    errors (.interrupted "stop") ∧
      ¬x.Loses env.surroundings .empty now.1 ∧
      ((Filtering.pipe env).onRow filter .empty).Reports Recorder.consumer now errors filter ∧
      ((LeftJoining.branchPipe env 0).onRow leftJoin .empty).Reports Recorder.consumer now errors
        leftJoin ∧
      ((Extending.pipe env).onRow extension .empty).Reports Recorder.consumer now errors
        extension := by
  intro env x now filter leftJoin extension errors
  obtain ⟨hFilter, hLeftJoin, hExtension⟩ :=
    (failures_reported_or_lost x .empty).2 env Recorder.consumer now
  have hMet (row : Solution) : ∃ error, x.Meets env.surroundings row error now.1 := ⟨_, rfl⟩
  refine ⟨rfl, id, ?_, ?_, ?_⟩
  · exact hFilter none (hMet _) id
  · exact hLeftJoin leftJoin 0 rfl rfl (hMet _) id
  · exact hExtension [("y", .constant (.integer 1))] [] "z" (.insert .empty "y" (.integer 1)) now.1 rfl rfl
      (hMet _) id

/-- A conjunction is false although a nested query that it asks for has failed, and another one ends with an
error of the type. A filter drops its row for either, and reports nothing. -/
theorem Expr.failure_lost_in_conjunction :
    let env : Environment :=
      { dataset := .empty, spill := .standard, group := none, describe := none, service := none,
        path := none, firstSolution := fun _ _ _ => return .error (.interrupted "stop"),
        allItems := fun _ _ _ => return [] }
    let settled : Expr := .and (.exists .singleton) (.constant (.boolean false))
    let mistyped : Expr := .and (.var "x") (.exists .singleton)
    let now : Clock × Recorder := (.starting 0, .new none none)
    (settled.Meets env.surroundings .empty (.interrupted "stop") now.1 ∧
      ((settled.eval env.surroundings .empty).run now.1).1 = .ok (.boolean false)) ∧
    (mistyped.Meets env.surroundings .empty (.interrupted "stop") now.1 ∧
      ((mistyped.eval env.surroundings .empty).run now.1).1 = .error (.type (.unbound "x"))) ∧
    ∀ x ∈ [settled, mistyped],
      ((Filtering.pipe env).onRow ⟨x, none⟩ .empty).deliver Recorder.consumer now =
        ((true, ⟨x, none⟩), now) := by
  intro env settled mistyped now
  have hLeft : ((holds env.surroundings .empty (.var "x")).run now.1).1 = .error (.type (.unbound "x")) :=
    rfl
  have hRight : ((holds env.surroundings .empty (.var "x")).run now.1).1 ≠ .ok false := by
    simp [hLeft]
  refine ⟨⟨.inl rfl, rfl⟩, ⟨.inr ⟨hRight, rfl⟩, rfl⟩, ?_⟩
  exact List.forall_mem_cons.mpr ⟨rfl, List.forall_mem_singleton.mpr rfl⟩

end SolutionFlow
