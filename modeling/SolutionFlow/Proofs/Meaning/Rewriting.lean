import SolutionFlow.Proofs.Expression.ThreeValued
import SolutionFlow.Proofs.Flow.Sifted
import SolutionFlow.Proofs.Meaning.Offering

/-! Conditions rewritten. A filter keeps the rows on which its condition is true, so the laws of the truth tables
are laws of filters: whatever a filter can do, it can do with a condition that comes of its own by them, and a
filter by a conjunction can do what two filters above each other can. -/
namespace SolutionFlow

/-- A condition admits the rows on which it is true. -/
theorem Expr.Stands.run_admits {clocks : Set Clock} {around : Surroundings} {row : Solution} {x : Expr}
    {s : TruthStatus} (h : x.Stands clocks around row s) {clock : Clock} (hClock : clock ∈ clocks) :
    ((x.admits around row).run clock).1 = .ok (decide (s = .yes)) := by
  have hStatus := (h clock hClock).1
  rw [Expr.statusAt] at hStatus
  rw [Expr.run_admits]
  rcases hOutcome : ((x.holds around row).run clock).1 with (fault | error) | (_ | _) <;>
    rw [hOutcome] at hStatus <;> cases hStatus <;> rfl

namespace Plan

/-- What a filter in this place lets its condition see of a row of its argument. -/
def filterView (arg : Plan) (scope : Scope) (row : Solution) : Solution :=
  if scope.nested then row else row.restrict arg.bindingNames

section

variable {env : Environment} {clocks : Set Clock} {arg : Plan} {x first second : Expr} {seed : Solution}
  {scope : Scope} {steps : Nat} {t : Trace} {chosen other : Solution → Bool}

/-- On these clocks the condition admits the rows, as a filter in this place shows them, that are chosen. -/
def Chooses (env : Environment) (clocks : Set Clock) (arg : Plan) (scope : Scope) (x : Expr)
    (chosen : Solution → Bool) : Prop :=
  clocks.Nonempty ∧ ∀ row, ∀ clock ∈ clocks,
    ((x.admits env.surroundings (arg.filterView scope row)).run clock).1 = .ok (chosen row)

theorem chooses_of_stands {value : Solution → Expr → TruthStatus} (hClocks : clocks.Nonempty)
    (h : ∀ row, ∀ atom ∈ x.atoms, atom.Stands clocks env.surroundings row (value row atom))
    (arg : Plan) (scope : Scope) :
    Chooses env clocks arg scope x fun row =>
      decide (x.status (value (arg.filterView scope row)) = .yes) :=
  ⟨hClocks, fun row _ hClock => (Expr.stands_status x (h (arg.filterView scope row))).run_admits hClock⟩

/-- The runs of a filter are the runs of its argument, less the rows that are not chosen. -/
theorem Chooses.runOn_filter (h : Chooses env clocks arg scope x chosen) {p : Process} :
    RunOn clocks env ((filter arg x).start env seed scope) steps t p ↔
      ∃ heard child, RunOn clocks env (arg.start env seed scope.descend) steps heard child ∧
        heard.Sifted chosen t ∧
        p = .node (.filter ⟨x, if scope.nested then none else some arg.bindingNames⟩) [child] := by
  refine Process.runOn_underOne_filter ⟨h.1, fun row clock hClock => ?_⟩
  rw [← h.2 row clock hClock, Filtering.view, filterView]
  cases scope.nested <;> rfl

theorem Chooses.exists_runOn_filter (h : Chooses env clocks arg scope x chosen) :
    (∃ p, RunOn clocks env ((filter arg x).start env seed scope) steps t p) ↔
      ∃ heard p, RunOn clocks env (arg.start env seed scope.descend) steps heard p ∧
        heard.Sifted chosen t := by
  simp only [h.runOn_filter]
  constructor
  · rintro ⟨_, heard, child, hRun, hSifted, rfl⟩
    exact ⟨heard, child, hRun, hSifted⟩
  · rintro ⟨heard, child, hRun, hSifted⟩
    exact ⟨_, heard, child, hRun, hSifted, rfl⟩

/-- Two filters above each other keep what both choose. -/
theorem Chooses.exists_runOn_filter_filter (h : Chooses env clocks arg scope first chosen)
    (hOther : Chooses env clocks arg scope second other) :
    (∃ p, RunOn clocks env ((filter (filter arg first) second).start env seed scope) steps t p) ↔
      ∃ heard p, RunOn clocks env (arg.start env seed scope.descend) steps heard p ∧
        heard.Sifted (fun row => chosen row && other row) t := by
  have hInner : Chooses env clocks arg scope.descend first chosen := h
  have hOuter : Chooses env clocks (filter arg first) scope second other := hOther
  rw [hOuter.exists_runOn_filter]
  constructor
  · rintro ⟨heard, p, hRun, hSifted⟩
    obtain ⟨heard', child, hRun', hSifted', rfl⟩ := hInner.runOn_filter.mp hRun
    exact ⟨heard', child, hRun', Trace.Sifted.exists_between_iff.mp ⟨heard, hSifted', hSifted⟩⟩
  · rintro ⟨heard, child, hRun, hSifted⟩
    obtain ⟨between, hFirst, hSecond⟩ := Trace.Sifted.exists_between_iff.mpr hSifted
    exact ⟨between, _, hInner.runOn_filter.mpr ⟨heard, child, hRun, hFirst, rfl⟩, hSecond⟩

end

/-- Conjunction, disjunction and negation have the statuses of the strong truth tables, whatever the clock is
at which the left operand is begun and that which it leaves to the right one. If all atoms of an expression
have a status on each row, then the expression has the status that the tables give it, and so has each
expression that comes of it by their laws. As the condition of a filter, both keep the same rows, those on
which the status is true; and a filter by a conjunction keeps the same rows as a filter by the second part
above one by the first. -/
theorem connectives_and_filters {env : Environment} {clocks : Set Clock} {x y : Expr}
    {value : Solution → Expr → TruthStatus} (hClocks : clocks.Nonempty)
    (hAtoms : ∀ row, ∀ atom ∈ x.atoms, atom.Stands clocks env.surroundings row (value row atom))
    (hRewrites : x.Rewrites y) :
    (∀ (around : Surroundings) (row : Solution) (clock : Clock) (left right : Expr) (a b : TruthStatus),
      left.statusAt around row clock = some a →
      right.statusAt around row (left.clockAfter around row clock) = some b →
      (Expr.not left).statusAt around row clock = some a.not ∧
        (Expr.and left right).statusAt around row clock = some (a.and b) ∧
        (Expr.or left right).statusAt around row clock = some (a.or b)) ∧
    (∀ row, x.Stands clocks env.surroundings row (x.status (value row)) ∧
      y.Stands clocks env.surroundings row (x.status (value row))) ∧
    (clocks = Set.univ → ∀ (start : Emission Process) (steps : Nat) (t : Trace) (p : Process),
      RunOn clocks env start steps t p ↔ Run env start steps t p) ∧
    ∀ (arg : Plan) (seed : Solution) (scope : Scope) (steps : Nat) (t : Trace),
      let Can := fun (plan : Plan) => ∃ p, RunOn clocks env (plan.start env seed scope) steps t p
      let chosen := fun row => decide (x.status (value (arg.filterView scope row)) = .yes)
      (Can (filter arg x) ↔ ∃ heard p,
        RunOn clocks env (arg.start env seed scope.descend) steps heard p ∧ heard.Sifted chosen t) ∧
      (Can (filter arg x) ↔ Can (filter arg y)) ∧
      ∀ first second, x = .and first second →
        (Can (filter arg x) ↔ Can (filter (filter arg first) second)) := by
  have hSame (row : Solution) : y.status (value row) = x.status (value row) :=
    (hRewrites.status_eq _).symm
  have hOther (row : Solution) :
      ∀ atom ∈ y.atoms, atom.Stands clocks env.surroundings row (value row atom) :=
    fun atom hMem => hAtoms row atom (hRewrites.mem_atoms_iff.mpr hMem)
  refine ⟨fun around row clock left right a b hLeft hRight =>
      ⟨Expr.statusAt_not hLeft, Expr.statusAt_and hLeft hRight, Expr.statusAt_or hLeft hRight⟩,
    fun row => ⟨Expr.stands_status x (hAtoms row), hSame row ▸ Expr.stands_status y (hOther row)⟩,
    fun hAll start steps t p => hAll ▸ runOn_univ, fun arg seed scope steps t => ?_⟩
  have hChooses := chooses_of_stands hClocks hAtoms arg scope
  have hChoosesOther := chooses_of_stands hClocks hOther arg scope
  simp only [hSame] at hChoosesOther
  refine ⟨hChooses.exists_runOn_filter,
    hChooses.exists_runOn_filter.trans hChoosesOther.exists_runOn_filter.symm, ?_⟩
  rintro first second rfl
  have hFirst := chooses_of_stands hClocks
    (fun row atom hMem => hAtoms row atom (List.mem_append_left second.atoms hMem)) arg scope
  have hSecond := chooses_of_stands hClocks
    (fun row atom hMem => hAtoms row atom (List.mem_append_right first.atoms hMem)) arg scope
  simp only [Expr.status, TruthStatus.and_eq_yes_iff, Bool.decide_and] at hChooses
  exact hChooses.exists_runOn_filter.trans (hFirst.exists_runOn_filter_filter hSecond).symm

/-- A disjunction of a name that is true and the time, which is neither true nor false, keeps the row in
either order. -/
theorem connectives_and_filters_or_now :
    let env : Environment := .ofDataset .empty
    let clocks : Set Clock := {clock | clock.present = 0}
    let x : Expr := .or (.var "a") .now
    let y : Expr := .or .now (.var "a")
    let value (row : Solution) (atom : Expr) : TruthStatus :=
      (atom.statusAt env.surroundings row (.starting 0)).getD .unknown
    let seed : Solution := .ofList [("a", .boolean true)]
    clocks.Nonempty ∧
      (∀ row, ∀ atom ∈ x.atoms, atom.Stands clocks env.surroundings row (value row atom)) ∧
      x.Rewrites y ∧
      (∀ row, y.Stands clocks env.surroundings row (x.status (value row))) ∧
      x.status (value seed) = .yes ∧ value seed .now = .unknown ∧
      ∃ p, RunOn clocks env ((filter .singleton y).start env seed .subquery) 0
        [.row seed true, .finish] p := by
  intro env clocks x y value seed
  have hClocks : clocks.Nonempty := ⟨.starting 0, rfl⟩
  have hAtoms (row : Solution) :
      ∀ atom ∈ x.atoms, atom.Stands clocks env.surroundings row (value row atom) := by
    intro atom hMem
    have hFree : atom.ExistsFree := by
      obtain rfl | rfl : atom = .var "a" ∨ atom = .now := by simpa [x, Expr.atoms] using hMem
      · trivial
      · trivial
    exact Expr.stands_of_existsFree hFree 0 row
  have hRewrites : x.Rewrites y := .or_comm _ _
  have hYes : x.status (value seed) = .yes := by decide
  obtain ⟨-, hStands, -, hFilter⟩ := connectives_and_filters hClocks hAtoms hRewrites
  obtain ⟨hRuns, hSame, -⟩ := hFilter .singleton seed .subquery 0 [.row seed true, .finish]
  have hSingle : RunOn clocks env (Plan.singleton.start env seed Scope.subquery.descend) 0
      [.row seed true, .finish] .idle := .start ⟨true, [.finish], rfl, [], rfl, rfl, rfl⟩
  exact ⟨hClocks, hAtoms, hRewrites, fun row => (hStands row).2, hYes, by decide,
    hSame.mp (hRuns.mpr ⟨_, _, hSingle, .keep (decide_eq_true hYes) (.finish .nil)⟩)⟩

end Plan

end SolutionFlow
