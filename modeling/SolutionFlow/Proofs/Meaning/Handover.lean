import SolutionFlow.Proofs.Flow.Serving
import SolutionFlow.Proofs.Meaning.Totality

/-! What plans hand over, step by step through their operators: given what the arguments hand over on
their seeds, what the plan does. An invariant of all rows of a plan needs no more of an operator than what
it does about a single row. -/
namespace SolutionFlow

variable {env : Environment} {P Q R : Solution → Prop}

theorem Projecting.carries {list : List Rename} {seed : Solution}
    (h : ∀ row, Q row → P (Projection.onto list row seed)) :
    pipe.Carries Q P (· = ⟨list, seed⟩) := by
  refine Pipe.carries_ofRow ?_
  rintro _ row rfl hRow
  simpa using h row hRow

namespace MultiProjecting

variable {seed : Solution}

theorem ensures_pushEach {row : Solution} {lists : List (List Rename × Option Solution)}
    (h : ∀ list ∈ lists.map (·.1), P (Projection.fresh list row seed)) :
    (pushEach seed row lists).Ensures P fun reply => reply.2.map (·.1) = lists.map (·.1) := by
  induction lists with
  | nil => rfl
  | cons head rest ih =>
      obtain ⟨list, last⟩ := head
      obtain ⟨hFirst, hRest⟩ := List.forall_mem_cons.mp h
      rw [pushEach]
      split
      · simp only [Emission.ensures_bind, Emission.ensures_pure]
        exact (ih hRest).mono (fun _ => id) fun _ hSame => congrArg (list :: ·) hSame
      · simp only [Emission.ensures_bind, Emission.ensures_push]
        refine ⟨hFirst, fun more => ?_⟩
        cases more with
        | true =>
            simp only [↓reduceIte, Emission.ensures_bind, Emission.ensures_pure]
            exact (ih hRest).mono (fun _ => id) fun _ hSame => congrArg (list :: ·) hSame
        | false => rfl

/-- Every row is a projection with one of the lists. -/
theorem carries {lists : List (List Rename)}
    (h : ∀ row, Q row → ∀ list ∈ lists, P (Projection.fresh list row seed)) :
    pipe.Carries Q P fun s => s.seed = seed ∧ s.lists.map (·.1) = lists := by
  refine Pipe.carries_ofRow ?_
  rintro s row ⟨rfl, rfl⟩ hRow
  simp only [Emission.ensures_bind, Emission.ensures_pure]
  exact (ensures_pushEach (h row hRow)).mono (fun _ => id) fun _ hSame => ⟨trivial, hSame⟩

end MultiProjecting

theorem Extending.carries {elements : List (String × Expr)}
    (h : ∀ around clock row extended, Q row →
      ((extend around row elements).run clock).1 = .ok extended → P extended) :
    (pipe env).Carries Q P (· = ⟨elements⟩) := by
  refine Pipe.carries_ofRow ?_
  rintro _ row rfl hRow
  simp only [Emission.ensures_bind, Emission.ensures_asking]
  intro gone clock
  split
  next extended hExtend => simpa using h _ clock row extended hRow hExtend
  next => simp

theorem Correcting.carries {s₀ : Correcting}
    (h : ∀ row corrected, Q row → s₀.correct? row = some corrected → P corrected) :
    pipe.Carries Q P (· = s₀) := by
  refine Pipe.carries_ofRow ?_
  rintro _ row rfl hRow
  split
  next corrected hCorrect => simpa using h row corrected hRow hCorrect
  next => simp

namespace Plan

variable {arg left right : Plan} {seed : Solution} {scope : Scope}

/-- A plan hands over rows that fulfil `P`, from its start on. -/
def HandsOver (env : Environment) (P : Solution → Prop) (plan : Plan) (seed : Solution)
    (scope : Scope) : Prop := (plan.start env seed scope).Ensures P (Process.Emits env P)

theorem HandsOver.mono {plan : Plan} (h : plan.HandsOver env P seed scope)
    (hRows : ∀ row, P row → Q row) : plan.HandsOver env Q seed scope :=
  Process.ensures_mono h hRows

theorem ensures_calling {kind : String} {call : Environment → Timed Call}
    (h : ∀ clock, (call env clock).1.result.Offers P) :
    (Process.calling kind call).Ensures P (Process.Emits env P) := by
  simp only [Process.calling, bind_pure_comp, Emission.ensures_map, Emission.ensures_time]
  exact fun _ => Process.emits_leaf h

theorem ensures_callingOn {α : Type} {kind collaborator : String} {helper : Option α}
    {call : α → Environment → Timed Call}
    (h : ∀ helper', helper = some helper' → ∀ clock, (call helper' env clock).1.result.Offers P) :
    (Process.callingOn kind collaborator helper call).Ensures P (Process.Emits env P) := by
  cases helper with
  | none =>
      simp only [Process.callingOn, Emission.ensures_bind, Emission.ensures_pure]
      exact Emission.ensures_reportIfHeard Process.emits_idle
  | some helper => exact ensures_calling (h helper rfl)

theorem ensures_nothing : Process.nothing.Ensures P (Process.Emits env P) := by
  simpa [Process.nothing] using Process.emits_idle

theorem ensures_single (hSeed : P seed) : (Process.single seed).Ensures P (Process.Emits env P) := by
  simp only [Process.single, Emission.ensures_bind, Emission.ensures_push]
  refine ⟨hSeed, fun more => ?_⟩
  cases more <;> simpa using Process.emits_idle

section SameRows

/-! Operators that hand on no other rows than they receive. -/

theorem handsOver_root (hArg : arg.HandsOver env P seed scope.descend) :
    (root arg).HandsOver env P seed scope := by
  rw [HandsOver, start, Emission.ensures_bind, Emission.ensures_timed]
  exact fun _ => hArg

theorem handsOver_filter {condition : Expr} (hArg : arg.HandsOver env P seed scope.descend) :
    (filter arg condition).HandsOver env P seed scope :=
  Process.ensures_underOne (fun _ => rfl) (fun _ _ => rfl) Filtering.carries trivial hArg

theorem handsOver_slice {offset limit : Option UInt64}
    (hArg : arg.HandsOver env P seed (scope.enter (.slice offset limit))) :
    (slice arg offset limit).HandsOver env P seed scope := by
  rw [HandsOver, start]
  split
  · exact ensures_nothing
  · exact Process.ensures_underOne (fun _ => rfl) (fun _ _ => rfl) Window.carries trivial hArg

theorem handsOver_distinct (hArg : arg.HandsOver env P seed (scope.enter .distinct)) :
    (distinct arg).HandsOver env P seed scope :=
  Process.ensures_underOne (fun _ => rfl) (fun _ _ => rfl) Deduplicating.carries trivial hArg

theorem handsOver_reduced (hArg : arg.HandsOver env P seed (scope.enter .reduced)) :
    (reduced arg).HandsOver env P seed scope :=
  Process.ensures_underOne (fun _ => rfl) (fun _ _ => rfl) Reducing.carries trivial hArg

theorem handsOver_order {keys : List (Direction × Expr)}
    (hArg : arg.HandsOver env P seed scope.descend) : (order arg keys).HandsOver env P seed scope :=
  Process.ensures_underOne (fun _ => rfl) (fun _ _ => rfl) Sorting.carries
    (Sorting.collects_new keys scope env.spill) hArg

end SameRows

theorem handsOver_project {list : List Rename} (hArg : arg.HandsOver env Q seed scope.descend)
    (h : ∀ row, Q row → P (Projection.onto list row seed)) :
    (project arg list).HandsOver env P seed scope :=
  Process.ensures_underOne (fun _ => rfl) (fun _ _ => rfl) (Projecting.carries h) rfl hArg

theorem handsOver_multiProject {lists : List (List Rename)}
    (hArg : arg.HandsOver env Q seed scope.descend)
    (h : ∀ row, Q row → ∀ list ∈ lists, P (Projection.fresh list row seed)) :
    (multiProject arg lists).HandsOver env P seed scope :=
  Process.ensures_underOne (fun _ => rfl) (fun _ _ => rfl) (MultiProjecting.carries h)
    ⟨rfl, by simp [MultiProjecting.new, Function.comp_def]⟩ hArg

theorem handsOver_extend {elements : List (String × Expr)}
    (hArg : arg.HandsOver env Q seed scope.descend)
    (h : ∀ around clock row extended, Q row →
      ((Extending.extend around row elements).run clock).1 = .ok extended → P extended) :
    (extend arg elements).HandsOver env P seed scope :=
  Process.ensures_underOne (fun _ => rfl) (fun _ _ => rfl) (Extending.carries h) rfl hArg

/-- A group hands over the rows of its groups. -/
theorem handsOver_group {names : List String} {elements : List (String × Aggregate)}
    (hGroup : ∀ evaluator, env.group = some evaluator → evaluator = Grouping.eval)
    (h : ∀ clock later rows, ((Grouping.eval ⟨names, elements⟩ env.surroundings seed
      (env.allItems arg seed scope.descend clock).1).run later).1 = .ok rows → ∀ row ∈ rows, P row) :
    (group arg names elements).HandsOver env P seed scope := by
  refine ensures_callingOn fun evaluator hSome clock => ?_
  rw [hGroup evaluator hSome]
  change CallResult.Offers P (Call.ofExcept (Except.map Iteration.ofRows
    ((Grouping.eval ⟨names, elements⟩ env.surroundings seed
      (env.allItems arg seed scope.descend clock).1).run
        (env.allItems arg seed scope.descend clock).2).1)).result
  cases hOutcome : ((Grouping.eval ⟨names, elements⟩ env.surroundings seed
      (env.allItems arg seed scope.descend clock).1).run
        (env.allItems arg seed scope.descend clock).2).1 with
  | error e => trivial
  | ok rows => exact Iteration.offers_ofRows.mpr (h clock _ rows hOutcome)

/-- A join hands over what its right argument does on the rows of the left one. -/
theorem handsOver_join (hLeft : left.HandsOver env Q seed scope.descend)
    (hRight : ∀ row, Q row → right.HandsOver env P row scope.descend) :
    (join left right).HandsOver env P seed scope :=
  Process.ensures_under (Operator.serves_join ⟨right, scope.descend, .new 1⟩ hRight) ⟨_, rfl, _, rfl⟩
    hLeft

/-- A left join does so as well, and hands over left rows; if it holds back names of the seed, it corrects
both. -/
theorem handsOver_leftJoin {condition : Option Expr}
    (hLeft : left.HandsOver env Q (seed.without (heldBack left right condition seed)) scope.descend)
    (hMatched : ∀ row, Q row → R row)
    (hRight : ∀ row, Q row → right.HandsOver env R row scope.descend)
    (hPlain : heldBack left right condition seed = [] → ∀ row, R row → P row)
    (hCorrected : ∀ row corrected, R row →
      (⟨seed, heldBack left right condition seed⟩ : Correcting).correct? row = some corrected →
        P corrected) :
    (leftJoin left right condition).HandsOver env P seed scope := by
  let op : LeftJoining := ⟨right, condition, left.bindingNames ++ right.bindingNames, scope.descend,
    .new 1, []⟩
  have hInner := Process.ensures_under (Operator.serves_leftJoin op hMatched hRight)
    ⟨op, rfl, _, _, rfl, by simp⟩ hLeft
  rw [HandsOver, start_leftJoin_eq]
  split
  next hNone => exact Process.ensures_mono hInner (hPlain hNone)
  next =>
    exact Process.ensures_underOne (fun _ => rfl) (fun _ _ => rfl) (Correcting.carries hCorrected) rfl
      hInner

theorem handsOver_union (hLeft : left.HandsOver env P seed scope.descend)
    (hRight : right.HandsOver env P seed scope.descend) :
    (union left right).HandsOver env P seed scope :=
  Process.ensures_underUnion hLeft hRight

/-- An intersection or a difference hands over what its left argument does, an intersection only if its
right one does so as well. -/
theorem ensures_underSetFilter (op : SetOperator) (hLeft : left.HandsOver env P seed scope.descend)
    (hRight : right.HandsOver env Q seed scope.descend)
    (h : ∀ row, P row → (op = .intersection → Q row) → R row) :
    (Process.under env (.setFilter ⟨op, left, seed, scope.descend, .new env.spill⟩)
      (fun row => left.start env row scope.descend)
      (right.start env seed scope.descend)).Ensures R (Process.Emits env R) := by
  let s : SetFilter := ⟨op, left, seed, scope.descend, .new env.spill⟩
  refine Process.ensures_mono (Process.ensures_under (Operator.serves_setFilter s hLeft)
    ⟨_, rfl, _, rfl, ?_⟩ hRight) fun row hRow => h row hRow.1 hRow.2
  simp [MemberSet.new, MemberSet.members]

theorem handsOver_intersection (hLeft : left.HandsOver env P seed scope.descend)
    (hRight : right.HandsOver env Q seed scope.descend) (h : ∀ row, P row → Q row → R row) :
    (intersection left right).HandsOver env R seed scope :=
  ensures_underSetFilter .intersection hLeft hRight fun row hRow hOther => h row hRow (hOther rfl)

theorem handsOver_difference (hLeft : left.HandsOver env P seed scope.descend)
    (hRight : right.HandsOver env Q seed scope.descend) :
    (difference left right).HandsOver env P seed scope :=
  ensures_underSetFilter .difference hLeft hRight fun _ hRow _ => hRow

end Plan

end SolutionFlow
