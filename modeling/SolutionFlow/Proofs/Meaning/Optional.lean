import SolutionFlow.Proofs.Meaning.Offering
import SolutionFlow.Proofs.Meaning.Seeded

/-! Left joins of well-designed plans. The evaluation starts the right argument of a left join on each
left row, with all that this row has been started on. It comes to the rows that the plan means from
the bottom up, because a well-designed plan shares with its outside only names that all of its rows
bind. -/
namespace SolutionFlow

theorem mem_eraseReps_loop {name first : String} {names done : List String} :
    name ∈ List.eraseRepsBy.loop (· == ·) first names done ↔
      name = first ∨ name ∈ names ∨ name ∈ done := by
  induction names generalizing first done with
  | nil => simp [List.eraseRepsBy.loop, or_comm]
  | cons next rest ih =>
      rw [List.eraseRepsBy.loop, List.mem_cons]
      split
      next hSame =>
        obtain rfl : first = next := beq_iff_eq.mp hSame
        simp only [ih, or_assoc, or_self_left]
      next =>
        simp only [ih, List.mem_cons, or_assoc, or_left_comm]

/-- Sorting makes up no names and loses none. -/
theorem mem_sortedNames {name : String} {names : List String} :
    name ∈ sortedNames names ↔ name ∈ names := by
  have hSort : name ∈ names.mergeSort (fun a b => decide (a ≤ b)) ↔ name ∈ names := List.mem_mergeSort
  rw [← hSort, sortedNames]
  cases names.mergeSort fun a b => decide (a ≤ b) with
  | nil => exact Iff.rfl
  | cons first rest =>
      refine mem_eraseReps_loop.trans ?_
      simp

namespace Plan

variable {d : Dataset} {left right plan : Plan} {seed : Solution} {a : Bag} {outside : List String}

/-- Without names that are to be kept from the arguments, a left join starts with its inner part. -/
theorem start_leftJoin {env : Environment} {scope : Scope}
    (hNames : LeftJoining.problemNames left.bindingNames right.varNames seed = []) :
    (leftJoin left right none).start env seed scope =
      startLeftJoin env left right none seed scope := by
  rw [start]
  simp only [Option.map_none, Option.getD_none, List.append_nil, hNames, List.isEmpty_nil,
    ↓reduceIte, Solution.without_nil]
  rfl

/-- Under a steady condition, the inner part of a left join is on its way to what the condition chooses, for
each left row, of what the right argument yields on it, or else to the row. -/
theorem toward_startLeftJoin {env : Environment} {condition : Option Expr} {scope : Scope}
    {chosen : Solution → Bool} {f : Solution → Bag} {bound steps : Nat} {bounds : Solution → Nat}
    {t : Trace} {p : Process}
    (run : Run env (startLeftJoin env left right condition seed scope) steps t p)
    (hStore : env.dataset = d) (hRefused : t.refused = false)
    (hSteady : LeftJoining.Steady env condition (left.bindingNames ++ right.bindingNames) chosen)
    (hLeft : left.YieldsWithin d scope.descend bound seed a)
    (hRight : ∀ row ∈ a, right.YieldsWithin d scope.descend (bounds row) row (f row)) :
    t.Toward (a.bind fun row => Bag.orElse ((f row).filter (chosen · = true)) row)
      (bound + (a.map bounds).sum) steps := by
  obtain ⟨split⟩ := split_leftJoin run
  obtain ⟨c, hFollows⟩ := split.weaves.leftJoin_follows hSteady.not_judges rfl (by simp)
  exact split.toward hStore hLeft hRight rfl hFollows hRefused (Operator.Strand.offer chosen)
    (fun hOrderly => split.weaves.offers_chosen hSteady rfl rfl hOrderly hRefused)
    fun _ => Operator.Strand.offer_toward

/-- A left join yields, for each left row, what its right argument yields on it, or else the row. -/
theorem Yields.leftJoin {f : Solution → Bag} (hLeft : left.Yields d seed a)
    (hRight : ∀ row ∈ a, right.Yields d row (f row))
    (hNames : LeftJoining.problemNames left.bindingNames right.varNames seed = []) :
    (Plan.leftJoin left right none).Yields d seed
      (a.bind fun row => if f row = 0 then {row} else f row) := by
  obtain ⟨bound, hBound⟩ := hLeft.within
  choose! bounds hBounds using fun row hRow => (hRight row hRow).within
  refine of_within (bound + (a.map bounds).sum) fun scope env steps t p hStore run hRefused => ?_
  rw [start_leftJoin hNames] at run
  have hToward := toward_startLeftJoin run hStore hRefused LeftJoining.steady_none (hBound _)
    fun row hRow => hBounds row hRow _
  have hAll : (fun row => Bag.orElse ((f row).filter fun _ => true = true) row) =
      fun row => if f row = 0 then {row} else f row :=
    funext fun row => by rw [Multiset.filter_eq_self.mpr fun _ _ => rfl, Bag.orElse]
  rwa [hAll] at hToward

namespace WellDesigned

variable (hSeed : ∀ name, seed.binds name = true → name ∈ outside)

include hSeed in
/-- A seed from outside binds no names that a left join would have to keep from its arguments. -/
theorem problemNames_eq_nil
    (hShared : ∀ name ∈ right.varNames, name ∈ outside → name ∈ left.varNames)
    (hLeft : WellDesigned (right.varNames ++ outside) left) :
    LeftJoining.problemNames left.bindingNames right.varNames seed = [] := by
  rw [LeftJoining.problemNames, List.filter_eq_nil_iff, hLeft.bindingNames_eq]
  intro name hMem hProblem
  simp only [Bool.and_eq_true, Bool.not_eq_true', List.contains_eq_mem, decide_eq_false_iff_not]
    at hProblem
  exact hProblem.1 (hShared name (mem_sortedNames.mp hMem) (hSeed name hProblem.2))

include hSeed in
/-- The rows that a well-designed plan gives to others bind its names and those from outside. -/
theorem mem_of_seeded (h : WellDesigned (right.varNames ++ outside) left) {row : Solution}
    (hRow : row ∈ Bag.seeded seed (left.meaning d)) :
    ∀ name, row.binds name = true → name ∈ left.varNames ++ outside := by
  intro name hBinds
  rw [List.mem_append]
  obtain hOutside | ⟨m, hMem, hOwn⟩ := Bag.binds_of_mem_seeded _ _ hRow hBinds
  · exact .inr (hSeed name hOutside)
  · exact .inl (h.mem_varNames_of_binds hMem hOwn)

include hSeed in
/-- What a seed from outside has in common with a right row, the left rows bind too. -/
theorem compatible_of_shared
    (hShared : ∀ name ∈ right.varNames, name ∈ outside → name ∈ left.varNames)
    (hLeft : WellDesigned (right.varNames ++ outside) left)
    (hRight : WellDesigned (left.varNames ++ outside) right) {row other : Solution}
    (hRow : row ∈ left.meaning d) (hSeedRow : seed.compatible row = true)
    (hOther : other ∈ right.meaning d) (hRowOther : row.compatible other = true) :
    seed.compatible other = true := by
  refine Solution.compatible_trans hSeedRow hRowOther fun name hBoundSeed hBoundOther => ?_
  have hOutside : name ∈ outside := hSeed name hBoundSeed
  have hName : name ∈ right.varNames := hRight.mem_varNames_of_binds hOther hBoundOther
  exact hLeft.binds_of_shared hRow (hShared name hName hOutside) (List.mem_append_right _ hOutside)

/-- What a well-designed plan yields from a seed, is what it means, merged with the seed, if the seed
comes from outside. -/
theorem yields (h : WellDesigned outside plan)
    (hSeed : ∀ name, seed.binds name = true → name ∈ outside) :
    plan.Yields d seed ((plan.meaning d).seeded seed) := by
  induction h generalizing seed with
  | pattern hGraph => exact (Positive.pattern (.inl hGraph)).yields seed
  | join hLeft hRight ihLeft ihRight =>
      rw [meaning, Bag.seeded_join]
      exact (ihLeft fun name hBinds => List.mem_append_right _ (hSeed name hBinds)).join
        fun row hRow => ihRight (mem_of_seeded hSeed hLeft hRow)
  | leftJoin hShared hLeft hRight ihLeft ihRight =>
      rw [meaning, Bag.seeded_leftJoin fun row hRow hSeedRow other hOther hRowOther =>
        compatible_of_shared hSeed hShared hLeft hRight hRow hSeedRow hOther hRowOther]
      exact (ihLeft fun name hBinds => List.mem_append_right _ (hSeed name hBinds)).leftJoin
        (fun row hRow => ihRight (mem_of_seeded hSeed hLeft hRow))
        (problemNames_eq_nil hSeed hShared hLeft)

end WellDesigned

/-- The evaluation of a well-designed plan gives the solutions that the plan means from the bottom
up. -/
theorem wellDesigned_gives_meaning (hPlan : WellDesigned [] plan) :
    plan.Gives d .empty (plan.meaning d) := by
  have hNone : ∀ name, Solution.empty.binds name = true → name ∈ ([] : List String) := by
    intro name hBinds
    exact absurd hBinds Bool.false_ne_true
  have hYields := hPlan.yields (d := d) hNone
  rw [Bag.seeded_empty] at hYields
  exact hYields.gives

/-- Of three statements in a row, with up to two of them behind each: the first has both, the second
has one, and the last is given by itself. -/
theorem wellDesigned_gives_meaning_path :
    let p : QuadPattern := ⟨.all, .ofVariable "x", .ofVariable "p", .ofVariable "y", none⟩
    let q : QuadPattern := ⟨.all, .ofVariable "y", .ofVariable "p", .ofVariable "z", none⟩
    let r : QuadPattern := ⟨.all, .ofVariable "z", .ofVariable "p", .ofVariable "w", none⟩
    let d : Dataset := ⟨[⟨.iri "a", .iri "n", .iri "b", none⟩, ⟨.iri "b", .iri "n", .iri "c", none⟩,
      ⟨.iri "c", .iri "n", .iri "d", none⟩]⟩
    let plan : Plan := leftJoin (pattern p) (leftJoin (pattern q) (pattern r) none) none
    WellDesigned [] plan ∧ plan.Gives d .empty
      {.ofList [("p", .iri "n"), ("w", .iri "d"), ("x", .iri "a"), ("y", .iri "b"), ("z", .iri "c")],
        .ofList [("p", .iri "n"), ("x", .iri "b"), ("y", .iri "c"), ("z", .iri "d")],
        .ofList [("p", .iri "n"), ("x", .iri "c"), ("y", .iri "d")]} := by
  intro p q r d plan
  have hInner : ∀ name ∈ (pattern r).varNames, name ∈ (pattern p).varNames ++ [] →
      name ∈ (pattern q).varNames := by decide
  have hPlan : WellDesigned [] plan :=
    .leftJoin (by simp) (.pattern rfl) (.leftJoin hInner (.pattern rfl) (.pattern rfl))
  have hGives := wellDesigned_gives_meaning (d := d) hPlan
  have hRows : plan.meaning d =
      {.ofList [("p", .iri "n"), ("w", .iri "d"), ("x", .iri "a"), ("y", .iri "b"),
          ("z", .iri "c")],
        .ofList [("p", .iri "n"), ("x", .iri "b"), ("y", .iri "c"), ("z", .iri "d")],
        .ofList [("p", .iri "n"), ("x", .iri "c"), ("y", .iri "d")]} := by
    decide
  rw [hRows] at hGives
  exact ⟨hPlan, hGives⟩

end Plan

end SolutionFlow
