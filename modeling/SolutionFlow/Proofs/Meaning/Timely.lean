import SolutionFlow.Proofs.Flow.Dated
import SolutionFlow.Proofs.Meaning.Denotation
import SolutionFlow.Proofs.Meaning.FanOut
import SolutionFlow.Proofs.Meaning.Totality

/-! What queries give whose conditions ask for the time of the query. It is not known before the first one asks
for it, and from then on it is the same for all. Whatever it has come to be in the end, the rows are those
of the query in whose conditions it stands for NOW from the start. -/
namespace SolutionFlow

namespace Plan

variable {env : Environment} {now : Nat} {plan plan' : Plan}

/-- The second plan is the first one with a time put in for NOW in its conditions, none of which asks a nested
query. Only operators that have no expressions but conditions occur. -/
inductive Dated (now : Nat) : Plan → Plan → Prop where
  | pattern (p : QuadPattern) : Dated now (.pattern p) (.pattern p)
  | inline (names : List String) (rows : List Solution) :
      Dated now (.inline names rows) (.inline names rows)
  | singleton : Dated now .singleton .singleton
  | empty : Dated now .empty .empty
  | filter {arg arg' : Plan} {condition : Expr} (hFree : condition.ExistsFree)
      (h : Dated now arg arg') : Dated now (.filter arg condition) (.filter arg' (condition.asOf now))
  | join {left left' right right' : Plan} (hLeft : Dated now left left')
      (hRight : Dated now right right') : Dated now (.join left right) (.join left' right')
  | leftJoin {left left' right right' : Plan} {condition : Option Expr}
      (hFree : ∀ x ∈ condition, x.ExistsFree) (hLeft : Dated now left left')
      (hRight : Dated now right right') :
      Dated now (.leftJoin left right condition)
        (.leftJoin left' right' (condition.map (Expr.asOf now)))
  | union {left left' right right' : Plan} (hLeft : Dated now left left')
      (hRight : Dated now right right') : Dated now (.union left right) (.union left' right')

namespace Dated

/-- Both plans have the same names. -/
theorem names_eq (h : Dated now plan plan') :
    plan'.bindingNames = plan.bindingNames ∧ plan'.varNames = plan.varNames := by
  induction h with
  | pattern p => exact ⟨rfl, rfl⟩
  | inline names rows => exact ⟨rfl, rfl⟩
  | singleton => exact ⟨rfl, rfl⟩
  | empty => exact ⟨rfl, rfl⟩
  | filter hFree h ih => simp only [bindingNames, varNames, ih, Expr.varNames_asOf, and_self]
  | join hLeft hRight ihLeft ihRight =>
      simp only [bindingNames, varNames, ihLeft, ihRight, and_self]
  | leftJoin hFree hLeft hRight ihLeft ihRight =>
      rename_i condition
      cases condition <;>
        simp only [bindingNames, varNames, ihLeft, ihRight, Expr.varNames_asOf, Option.map_none,
          Option.map_some, and_self]
  | union hLeft hRight ihLeft ihRight =>
      simp only [bindingNames, varNames, ihLeft, ihRight, and_self]

/-- Both left joins hold back the same names. -/
theorem heldBack_eq {left left' right right' : Plan} (hLeft : Dated now left left')
    (hRight : Dated now right right') (condition : Option Expr) (seed : Solution) :
    heldBack left' right' (condition.map (Expr.asOf now)) seed = heldBack left right condition seed := by
  have hMentioned : ((condition.map (Expr.asOf now)).map Expr.varNames).getD [] =
      (condition.map Expr.varNames).getD [] := by
    cases condition <;> simp [Expr.varNames_asOf]
  rw [heldBack, heldBack, hLeft.names_eq.1, hRight.names_eq.2, hMentioned]

/-- Both plans go alike from the start. -/
theorem start (h : Dated now plan plan') (seed : Solution) (scope : Scope) :
    (plan.start env seed scope).Dated now (Process.Dated env now) (plan'.start env seed scope) := by
  induction h generalizing seed scope with
  | pattern p => exact Process.dated_calling _ _
  | inline names rows => exact Process.dated_calling _ _
  | singleton =>
      refine (Emission.Dated.push seed).bind fun more _ hMore => ?_
      subst hMore
      split
      · exact Emission.Dated.finished.bind fun _ _ _ => .pure Process.dated_idle
      · exact .pure Process.dated_idle
  | empty => exact Emission.Dated.finished.bind fun _ _ _ => .pure Process.dated_idle
  | filter hFree h ih =>
      simp only [Plan.start, h.names_eq.1]
      exact Process.dated_underOne (.filter ⟨hFree, rfl⟩) (ih seed scope.descend)
  | join hLeft hRight ihLeft ihRight =>
      refine Process.dated_under (.join ⟨_, rfl, fun row => ?_⟩) (fun row => ?_)
        (ihLeft seed scope.descend)
      · exact ihRight row scope.descend
      · exact ihRight row scope.descend
  | leftJoin hFree hLeft hRight ihLeft ihRight =>
      rename_i left left' right right' condition
      have hInner : ∀ seed, (startLeftJoin env left right condition seed scope).Dated now
          (Process.Dated env now)
          (startLeftJoin env left' right' (condition.map (Expr.asOf now)) seed scope) := by
        intro seed
        rw [startLeftJoin, startLeftJoin, hLeft.names_eq.1, hRight.names_eq.1]
        refine Process.dated_under (.leftJoin ⟨hFree, right', rfl, fun row => ?_⟩) (fun row => ?_)
          (ihLeft seed scope.descend)
        · exact ihRight row scope.descend
        · exact ihRight row scope.descend
      rw [start_leftJoin_eq, start_leftJoin_eq, hLeft.heldBack_eq hRight]
      split
      · exact hInner _
      · exact Process.dated_underOne (.correct _) (hInner _)
  | union hLeft hRight ihLeft ihRight =>
      exact Process.dated_underUnion (ihLeft seed scope.descend) (ihRight seed scope.descend)

end Dated

/-- No time is asked for where there are no conditions. -/
theorem Positive.dated (h : plan.Positive) : plan.Dated now plan := by
  induction h with
  | pattern hGraph => exact .pattern _
  | inline hRows => exact .inline _ _
  | singleton => exact .singleton
  | empty => exact .empty
  | join hLeft hRight ihLeft ihRight => exact .join ihLeft ihRight
  | union hLeft hRight ihLeft ihRight => exact .union ihLeft ihRight

/-- Over a store, the evaluation of the plan from a seed gives, in its place of a query, exactly the rows that
belong to the time of the query: however its jobs take turns, it comes to an end, and then its stream is
made of these rows and one end behind them. A time that the query has from the start, it keeps; if none
has been taken in the end, the rows are the same for all times. -/
structure GivesInTime (d : Dataset) (plan : Plan) (seed : Solution) (scope : Scope) (rows : Nat → Bag) :
    Prop where
  bounded : ∃ bound, ∀ {env : Environment} {first last : Clock} {steps : Nat} {t : Trace} {p : Process},
    env.dataset = d → TimedRun env (plan.start env seed scope) first steps t p last →
      t.refused = false → steps ≤ bound
  finishes : ∀ {env : Environment} (first : Clock), env.dataset = d → ∃ steps t p last,
    TimedRun env (plan.start env seed scope) first steps t p last ∧ t.refused = false ∧ p.Finished
  result : ∀ {env : Environment} {first last : Clock} {steps : Nat} {t : Trace} {p : Process},
    env.dataset = d → TimedRun env (plan.start env seed scope) first steps t p last →
      t.refused = false → p.Finished →
        t = t.accepted.map (.row · true) ++ [.finish] ∧ first.Keeps last ∧
          ∀ now, last.Shows now → t.rows = rows now

section

variable {d : Dataset} {seed : Solution} {scope : Scope} {rows rows' : Nat → Bag}

/-- What an evaluation gives is determined for each time. -/
theorem GivesInTime.unique (h : plan.GivesInTime d seed scope rows)
    (h' : plan.GivesInTime d seed scope rows') : rows = rows' := by
  funext now
  have hStore : (Environment.ofDataset d).dataset = d := rfl
  obtain ⟨steps, t, p, last, run, hRefused, hDone⟩ := h.finishes ⟨now, some now⟩ hStore
  obtain ⟨-, hKeeps, hRows⟩ := h.result hStore run hRefused hDone
  have hShows : last.Shows now := fun time hTime =>
    Option.some.inj (hTime.symm.trans (hKeeps now rfl))
  rw [← hRows now hShows, (h'.result hStore run hRefused hDone).2.2 now hShows]

/-- Plans give what they yield with the time put in, if their steps are bounded whatever the time is. -/
theorem givesInTime (bound : Nat)
    (h : ∀ now, ∃ plan', plan.Dated now plan' ∧ plan'.YieldsWithin d scope bound seed (rows now)) :
    plan.GivesInTime d seed scope rows := by
  have hToward : ∀ {env first last steps t p}, env.dataset = d →
      TimedRun env (plan.start env seed scope) first steps t p last → t.refused = false →
        ∀ now, last.Shows now →
          t.Toward (rows now) bound steps ∧ (p.Finished → t.Completes ∧ t.rows = rows now) := by
    intro env first last steps t p hStore run hRefused now hShows
    obtain ⟨plan', hDated, hYields⟩ := h now
    obtain ⟨-, q, hSame, hRun⟩ := run.dated (hDated.start seed scope)
    have hBegun := hYields hStore (hRun hShows) hRefused
    exact ⟨hBegun, fun hDone => hBegun.finished (hRun hShows) hRefused (hSame.finished_iff.mp hDone)⟩
  have hBounded : ∀ {env first last steps t p}, env.dataset = d →
      TimedRun env (plan.start env seed scope) first steps t p last → t.refused = false →
        steps ≤ bound := fun {_ _ last _ _ _} hStore run hRefused =>
    (hToward hStore run hRefused _ last.shows_present).1.bounded
  refine ⟨⟨bound, hBounded⟩, fun {env} first hStore => ?_, ?_⟩
  · exact exists_finished_from fun run => hBounded hStore run
  · intro env first last steps t p hStore run hRefused hDone
    have hAll := hToward hStore run hRefused
    obtain ⟨plan', hDated, -⟩ := h 0
    refine ⟨?_, (run.dated (hDated.start seed scope)).1, fun now hShows => ((hAll now hShows).2 hDone).2⟩
    exact ((hAll _ last.shows_present).2 hDone).1.eq (plan.keeps run.run).orderly

end

end Plan

end SolutionFlow
