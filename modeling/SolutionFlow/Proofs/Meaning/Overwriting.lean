import SolutionFlow.Evaluation
import SolutionFlow.Proofs.Expression.Results
import SolutionFlow.Proofs.Flow.Reading
import SolutionFlow.Proofs.Meaning.Handover
import SolutionFlow.Proofs.Meaning.Pattern

/-! What an evaluation leaves of its seed. Every row that comes of a plan has the bindings of the seed, up
to the names that the plan overwrites: those that are projected from other names, computed, or
aggregated. -/
namespace SolutionFlow

namespace Solution

variable {a b c : Solution} {names more : List String}

theorem within_without_iff : (a.without names).Within b ↔
    ∀ name ∉ names, ∀ value, a.get? name = some value → b.get? name = some value := by
  simp only [Within, without, get?_filterNames]
  refine forall_congr' fun name => ?_
  by_cases hMem : name ∈ names <;> simp [hMem]

theorem within_refl (a : Solution) : a.Within a := fun _ _ => id

/-- What is within a row is so as well if fewer names are looked at. -/
theorem Within.without_mono (h : (a.without names).Within b) (hSub : ∀ name ∈ names, name ∈ more) :
    (a.without more).Within b :=
  within_without_iff.mpr fun name hNot =>
    within_without_iff.mp h name (mt (hSub name) hNot)

theorem Within.without (h : a.Within b) (names : List String) : (a.without names).Within b :=
  within_without_iff.mpr fun name _ => h name

theorem Within.without_trans (h : (a.without names).Within b) (hNext : (b.without more).Within c) :
    (a.without (names ++ more)).Within c := by
  refine within_without_iff.mpr fun name hNot value hValue => ?_
  rw [List.mem_append, not_or] at hNot
  exact within_without_iff.mp hNext name hNot.2 value
    (within_without_iff.mp h name hNot.1 value hValue)

end Solution

namespace Plan

/-- The names that a plan may bind to something else than its seed does. -/
def overwritten : Plan → List String
  | .project arg list => (list.filter fun rename =>
      decide (rename.source ≠ rename.target) || arg.overwritten.contains rename.source).map (·.target)
  | .extend arg elements => arg.overwritten ++ Extending.targets elements
  | .group arg names elements => names.filter arg.overwritten.contains ++ elements.map (·.1)
  | .filter arg _ | .slice arg _ _ | .distinct arg | .reduced arg | .order arg _ => arg.overwritten
  | .join left right | .leftJoin left right _ | .union left right =>
    left.overwritten ++ right.overwritten
  | .intersection left _ | .difference left _ => left.overwritten
  | _ => []

/-- Plans that are evaluated without paths, services, descriptions and other sources of rows. -/
inductive Local : Plan → Prop where
  | pattern (p : QuadPattern) : Local (.pattern p)
  | inline (names : List String) (rows : List Solution) : Local (.inline names rows)
  | singleton : Local .singleton
  | empty : Local .empty
  | project {arg : Plan} (list : List Rename) (hArg : Local arg) : Local (.project arg list)
  | filter {arg : Plan} (condition : Expr) (hArg : Local arg) : Local (.filter arg condition)
  | extend {arg : Plan} (elements : List (String × Expr)) (hArg : Local arg) :
      Local (.extend arg elements)
  | slice {arg : Plan} (offset limit : Option UInt64) (hArg : Local arg) :
      Local (.slice arg offset limit)
  | distinct {arg : Plan} (hArg : Local arg) : Local (.distinct arg)
  | reduced {arg : Plan} (hArg : Local arg) : Local (.reduced arg)
  | order {arg : Plan} (keys : List (Direction × Expr)) (hArg : Local arg) : Local (.order arg keys)
  | group {arg : Plan} (names : List String) (elements : List (String × Aggregate))
      (hArg : Local arg) : Local (.group arg names elements)
  | join {left right : Plan} (hLeft : Local left) (hRight : Local right) : Local (.join left right)
  | leftJoin {left right : Plan} (condition : Option Expr) (hLeft : Local left)
      (hRight : Local right) : Local (.leftJoin left right condition)
  | union {left right : Plan} (hLeft : Local left) (hRight : Local right) : Local (.union left right)
  | intersection {left right : Plan} (hLeft : Local left) (hRight : Local right) :
      Local (.intersection left right)
  | difference {left right : Plan} (hLeft : Local left) (hRight : Local right) :
      Local (.difference left right)

/-- A row has the bindings of the seed that a plan does not overwrite. -/
def Respects (plan : Plan) (seed row : Solution) : Prop := (seed.without plan.overwritten).Within row

end Plan

/-- Groups are evaluated as they should, and nested queries give rows that respect their seeds. -/
structure Environment.Respectful (env : Environment) : Prop where
  group : ∀ evaluator, env.group = some evaluator → evaluator = Grouping.eval
  allItems : ∀ {arg : Plan}, arg.Local → ∀ seed scope clock row,
    .ok row ∈ (env.allItems arg seed scope clock).1 → arg.Respects seed row

namespace Plan

variable {env : Environment} {arg left right plan : Plan} {seed row : Solution} {scope : Scope}

theorem respects_solutions (p : QuadPattern) (h : row ∈ p.solutions env.dataset seed) :
    seed.Within row := by
  obtain ⟨q, -, hBind⟩ := List.mem_filterMap.mp h
  rw [QuadPattern.bind?_eq] at hBind
  obtain ⟨m, -, hMerge⟩ := Option.bind_eq_some_iff.mp hBind
  exact (Solution.within_of_merge? hMerge).1

theorem respects_inline {rows : List Solution}
    (h : row ∈ if seed.isEmpty then rows else rows.filterMap seed.assign?) : seed.Within row := by
  split at h
  next hEmpty =>
    rw [Solution.eq_empty_of_isEmpty hEmpty]
    intro name value hValue
    cases hValue
  next =>
    obtain ⟨source, -, hAssign⟩ := List.mem_filterMap.mp h
    exact (Solution.within_of_merge? (Solution.merge?_of_assign? hAssign)).1

/-- A projection puts what it projects over the seed. -/
theorem respects_project {list : List Rename} (h : arg.Respects seed row) :
    (project arg list).Respects seed (Projection.onto list row seed) := by
  refine Solution.within_without_iff.mpr fun name hNot value hValue => ?_
  refine Projection.get?_collect hValue fun rename hMem hTarget other hOther => ?_
  have hKept : ¬(decide (rename.source ≠ rename.target) ||
      arg.overwritten.contains rename.source) = true := by
    intro hChanged
    rw [overwritten, List.mem_map] at hNot
    exact hNot ⟨rename, List.mem_filter.mpr ⟨hMem, hChanged⟩, hTarget⟩
  simp only [Bool.or_eq_true, decide_eq_true_eq, List.contains_iff_mem, not_or,
    Decidable.not_not] at hKept
  have hSource : rename.source = name := hKept.1.trans hTarget
  have hSame := Solution.within_without_iff.mp h name (hSource ▸ hKept.2) value hValue
  exact Option.some.inj ((hSource ▸ hOther).symm.trans hSame)

/-- Computed bindings leave all other names alone. -/
theorem respects_extend {around : Surroundings} {elements : List (String × Expr)} {clock : Clock}
    {extended : Solution} (h : arg.Respects seed row)
    (hExtend : ((Extending.extend around row elements).run clock).1 = .ok extended) :
    (extend arg elements).Respects seed extended := by
  refine Solution.within_without_iff.mpr fun name hNot value hValue => ?_
  rw [overwritten, List.mem_append, not_or] at hNot
  rw [Extending.get?_of_extend hExtend hNot.2]
  exact Solution.within_without_iff.mp h name hNot.1 value hValue

/-- Groups have the bindings of the seed, with their keys and aggregates over them. -/
theorem respects_group {names : List String} {elements : List (String × Aggregate)}
    {around : Surroundings} {clock : Clock} {input : List Item} {rows : List Solution}
    (hInput : ∀ row, .ok row ∈ input → arg.Respects seed row)
    (h : ((Grouping.eval ⟨names, elements⟩ around seed input).run clock).1 = .ok rows)
    (hRow : row ∈ rows) : (group arg names elements).Respects seed row := by
  refine Solution.within_without_iff.mpr fun name hNot value hValue => ?_
  rw [overwritten, List.mem_append, not_or] at hNot
  refine Grouping.get?_of_eval h hRow hValue hNot.2 fun hNamed other hMem => ?_
  have hKept : name ∉ arg.overwritten := fun hOver =>
    hNot.1 (List.mem_filter.mpr ⟨hNamed, by simpa using hOver⟩)
  exact Solution.within_without_iff.mp (hInput other hMem) name hKept value hValue

/-- What was held back from the arguments is put back, and a row in conflict with it is dropped. -/
theorem respects_corrected {names overwritten : List String} {corrected : Solution}
    (h : ((seed.without names).without overwritten).Within row)
    (hCorrect : (⟨seed, names⟩ : Correcting).correct? row = some corrected) :
    (seed.without overwritten).Within corrected := by
  rw [Correcting.correct?_eq, Option.ite_none_right_eq_some] at hCorrect
  obtain ⟨hCompatible, hRow⟩ := hCorrect
  rw [← Option.some.inj hRow]
  refine Solution.within_without_iff.mpr fun name hNot value hValue => ?_
  rw [Solution.get?_union, Solution.restrict, Solution.get?_filterNames]
  cases hBound : row.get? name with
  | some other =>
      rw [Solution.compatible_iff.mp hCompatible name value other hValue hBound]
      rfl
  | none =>
      have hHeld : name ∈ names := by
        by_cases hMem : name ∈ names
        · exact hMem
        · have hKept : (seed.without names).get? name = some value := by
            simpa [Solution.without, hMem] using hValue
          rw [Solution.within_without_iff.mp h name hNot value hKept] at hBound
          cases hBound
      simpa [hHeld] using hValue

/-- A left join hands over rows that respect the seed, the names that it holds back among them. -/
theorem handsOver_leftJoin_respects {condition : Option Expr}
    (hLeft : ∀ seed, left.HandsOver env (left.Respects seed) seed scope.descend)
    (hRight : ∀ row, right.HandsOver env (right.Respects row) row scope.descend) :
    (leftJoin left right condition).HandsOver env ((leftJoin left right condition).Respects seed)
      seed scope := by
  let names := heldBack left right condition seed
  refine handsOver_leftJoin (hLeft (seed.without names))
    (fun row (hRow : left.Respects (seed.without names) row) =>
      hRow.without_mono fun _ => List.mem_append_left right.overwritten)
    (fun row hRow => (hRight row).mono fun _ => hRow.without_trans) ?_ fun row corrected =>
      respects_corrected
  intro hNone row hRow
  rwa [show names = [] from hNone, Solution.without_nil] at hRow

/-- From whatever seed, a local plan hands over rows that respect the seed. -/
theorem Local.handsOver (h : plan.Local) (hEnv : env.Respectful) (seed : Solution) (scope : Scope) :
    plan.HandsOver env (plan.Respects seed) seed scope := by
  induction h generalizing seed scope with
  | pattern p =>
      refine ensures_calling fun clock => Iteration.offers_ofRows.mpr fun row hRow => ?_
      exact (respects_solutions p hRow).without _
  | inline names rows =>
      refine ensures_calling fun clock => Iteration.offers_ofRows.mpr fun row hRow => ?_
      exact (respects_inline hRow).without _
  | singleton => exact ensures_single ((Solution.within_refl seed).without _)
  | empty => exact ensures_nothing
  | project list hArg ih => exact handsOver_project (ih seed _) fun _ => respects_project
  | filter condition hArg ih => exact handsOver_filter (ih seed _)
  | extend elements hArg ih =>
      exact handsOver_extend (ih seed _) fun _ _ _ _ => respects_extend
  | slice offset limit hArg ih => exact handsOver_slice (ih seed _)
  | distinct hArg ih => exact handsOver_distinct (ih seed _)
  | reduced hArg ih => exact handsOver_reduced (ih seed _)
  | order keys hArg ih => exact handsOver_order (ih seed _)
  | group names elements hArg ih =>
      exact handsOver_group hEnv.group fun clock later rows hRows row =>
        respects_group (hEnv.allItems hArg seed scope.descend clock) hRows
  | join hLeft hRight ihLeft ihRight =>
      rename_i left right
      exact handsOver_join (ihLeft seed _) fun row (hRow : left.Respects seed row) =>
        (ihRight row _).mono fun _ => hRow.without_trans
  | leftJoin condition hLeft hRight ihLeft ihRight =>
      exact handsOver_leftJoin_respects (fun seed => ihLeft seed _) (fun row => ihRight row _)
  | union hLeft hRight ihLeft ihRight =>
      refine handsOver_union ((ihLeft seed _).mono fun _ hRow => ?_)
        ((ihRight seed _).mono fun _ hRow => ?_)
      · exact hRow.without_mono fun _ => List.mem_append_left _
      · exact hRow.without_mono fun _ => List.mem_append_right _
  | intersection hLeft hRight ihLeft ihRight =>
      exact handsOver_intersection (ihLeft seed _) (ihRight seed _) fun _ hRow _ => hRow
  | difference hLeft hRight ihLeft ihRight =>
      exact handsOver_difference (ihLeft seed _) (ihRight seed _)

end Plan

/-- Nested queries give rows that respect their seeds, at whatever depth they are nested. -/
theorem Evaluation.respectful (e : Evaluation)
    (hGroup : ∀ evaluator, e.collaborators.group = some evaluator → evaluator = Grouping.eval)
    (depth : Nat) : (e.environment depth).Respectful := by
  induction depth with
  | zero => exact ⟨hGroup, fun _ _ _ _ _ hMem => absurd hMem List.not_mem_nil⟩
  | succ depth ih =>
      exact ⟨hGroup, fun hArg seed scope clock row hMem =>
        (e.holds_launch (hArg.handsOver ih seed scope) clock).rest e.patience row hMem⟩

namespace Plan

/-- Whatever it overwrites, a plan keeps the rest of its seed. All rows that come of it, pushed or read,
have the bindings of the seed that it does not overwrite; and what a join gives for a left row has
the bindings of this row that its right argument does not overwrite. -/
theorem local_respects_seed {e : Evaluation} {plan : Plan} {seed : Solution} {scope : Scope}
    (hGroup : ∀ evaluator, e.collaborators.group = some evaluator → evaluator = Grouping.eval)
    (hPlan : plan.Local) :
    (∀ {steps t p}, Run (e.environmentOf plan) (plan.start (e.environmentOf plan) seed scope) steps t p →
      ∀ row more, Event.row row more ∈ t → plan.Respects seed row) ∧
    (∀ clock row, .ok row ∈ (e.openAt plan seed scope clock).rest.1 → plan.Respects seed row) ∧
    ∀ {left right steps t p}, plan = join left right →
      Run (e.environmentOf plan) (plan.start (e.environmentOf plan) seed scope) steps t p →
        Nonempty (Split (e.environmentOf plan) (.join ⟨right, scope.descend, .new 1⟩) []
          (left.start (e.environmentOf plan) seed scope.descend)
          (fun row => right.start (e.environmentOf plan) row scope.descend) steps t p) ∧
        ∀ split : Split (e.environmentOf plan) (.join ⟨right, scope.descend, .new 1⟩) []
          (left.start (e.environmentOf plan) seed scope.descend)
          (fun row => right.start (e.environmentOf plan) row scope.descend) steps t p,
        split.threads.map (·.strand.seed) = split.lead.accepted ∧
          t.rows = (split.threads.map (·.strand.trace.rows)).sum ∧
          ∀ thread ∈ split.threads, ∀ row more, Event.row row more ∈ thread.strand.trace →
            right.Respects thread.strand.seed row := by
  have hEnv : (e.environmentOf plan).Respectful := e.respectful hGroup plan.depth
  refine ⟨fun run => (run.emits (hPlan.handsOver hEnv seed scope)).1, fun clock => ?_, ?_⟩
  · exact (e.holds_launch (hPlan.handsOver hEnv seed scope) clock).rest e.patience
  · rintro left right steps t p rfl run
    refine ⟨split_join run, fun split => ?_⟩
    obtain ⟨hSeeds, hRows⟩ := split.weaves.join_rows.2
    rw [List.map_map] at hSeeds
    rw [Operator.Strand.allRows, List.map_map] at hRows
    cases hPlan with
    | join _ hRight =>
        exact ⟨hSeeds, hRows, fun thread hMem =>
          (Run.emits (split.threads_run thread hMem) (hRight.handsOver hEnv _ _)).1⟩

/-- A name that is neither projected nor projected to keeps its value. -/
theorem local_respects_seed_project :
    let plan : Plan := .project (.inline ["x"] [.ofList [("x", .integer 2)]]) [⟨"x", "y"⟩]
    let e : Evaluation := ⟨(Environment.ofDataset .empty).toCollaborators, 1, .unlimited 0, 5⟩
    let seed : Solution := .ofList [("a", .integer 1), ("y", .integer 1)]
    plan.overwritten = ["y"] ∧ ∀ {steps t p},
      Run (e.environmentOf plan) (plan.start (e.environmentOf plan) seed .root) steps t p →
        ∀ row more, Event.row row more ∈ t → row.get? "a" = some (.integer 1) := by
  intro plan e seed
  have hNames : plan.overwritten = ["y"] := by simp [plan, overwritten]
  have hGroup : ∀ evaluator, e.collaborators.group = some evaluator → evaluator = Grouping.eval :=
    fun _ hSome => by cases hSome
  have hLocal : plan.Local := .project _ (.inline _ _)
  refine ⟨hNames, fun run row more hMem => ?_⟩
  have hRespects := (local_respects_seed hGroup hLocal).1 run row more hMem
  rw [Respects, hNames] at hRespects
  exact Solution.within_without_iff.mp hRespects "a" (by decide) (.integer 1) (by decide)

/-- What a left row is joined with may overwrite it. Here the right argument binds the name that the
seed, and with it the left row, has a value for. -/
theorem join_overwrites_left :
    let right : Plan := .project (.inline ["x"] [.ofList [("x", .integer 2)]]) [⟨"x", "a"⟩]
    let plan : Plan := .join .singleton right
    let e : Evaluation := ⟨(Environment.ofDataset .empty).toCollaborators, 1, .unlimited 0, 5⟩
    let seed : Solution := .ofList [("a", .integer 1)]
    let row : Solution := .ofList [("a", .integer 2)]
    plan.Local ∧ ¬seed.Within row ∧ ∃ steps t p,
      Run (e.environmentOf plan) (plan.start (e.environmentOf plan) seed .root) steps t p ∧
        t.rows = {row} := by
  intro right plan e seed row
  refine ⟨.join .singleton (.project _ (.inline _ _)), fun hWithin => ?_, ?_⟩
  · exact absurd (hWithin "a" (.integer 1) (by decide)) (by decide)
  · obtain ⟨steps, t, p, run, -, hHeard, -⟩ := e.run_of_push plan seed (.starting 0)
    refine ⟨steps, t, p, run, ?_⟩
    have hRows : (e.push Recorder.consumer plan seed (.starting 0, .new none none)).2.rows = [row] := by
      decide +kernel
    rw [hHeard] at hRows
    have hAccepted : t.accepted = [row] := by simpa [Recorder.hear, Recorder.new] using hRows
    rw [Trace.rows, hAccepted]
    rfl

end Plan

end SolutionFlow
