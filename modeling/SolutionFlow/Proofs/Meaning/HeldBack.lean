import Mathlib
import SolutionFlow.Proofs.Expression.Coincidence
import SolutionFlow.Proofs.Flow.Execution
import SolutionFlow.Proofs.Flow.Reading
import SolutionFlow.Proofs.Meaning.Handover
import SolutionFlow.Proofs.Meaning.Optional

/-! The names of the seed that a left join keeps from its arguments. They are found by what occurs in the
right argument, which is not all that it may bind: names that it computes do not occur in it. As long as
some name is held back, all rows agree with the seed on all names. -/
namespace SolutionFlow

namespace Plan

/-- The names that the solutions of a plan may bind because they are computed there: targets of
projections, computed bindings and aggregates. None of them counts as occurring in the plan. -/
def computedNames : Plan → List String
  | .project _ list => list.map (·.target)
  | .multiProject _ lists => lists.flatMap fun list => list.map (·.target)
  | .extend arg elements => arg.computedNames ++ elements.map (·.1)
  | .group _ _ elements => elements.map (·.1)
  | .root arg | .filter arg _ | .slice arg _ _ | .distinct arg | .reduced arg | .order arg _
  | .service _ arg _ | .describe arg => arg.computedNames
  | .join left right | .leftJoin left right _ | .union left right | .intersection left right =>
    left.computedNames ++ right.computedNames
  | .difference left _ => left.computedNames
  | .pattern _ | .external _ | .zeroLengthPath _ | .arbitraryLengthPath .. | .inline .. | .singleton
  | .empty => []

variable {env : Environment} {left right : Plan} {condition : Option Expr} {seed : Solution}
  {scope : Scope} {name : String}

/-- The names of two arguments together. -/
theorem mem_varNames_or_computedNames_append {names occurring computed names' occurring' computed' : List String}
    (hLeft : name ∈ names → name ∈ occurring ∨ name ∈ computed)
    (hRight : name ∈ names' → name ∈ occurring' ∨ name ∈ computed') (h : name ∈ names ++ names') :
    name ∈ occurring ++ occurring' ∨ name ∈ computed ++ computed' := by
  simp only [List.mem_append] at h ⊢
  exact (h.imp hLeft hRight).elim (.imp .inl .inl) (.imp .inr .inr)

/-- What a plan may bind occurs in it, unless it is computed. -/
theorem mem_varNames_or_computedNames :
    (plan : Plan) → name ∈ plan.bindingNames → name ∈ plan.varNames ∨ name ∈ plan.computedNames
  | .pattern _, h | .external _, h | .zeroLengthPath _, h | .inline _ _, h => .inl h
  | .arbitraryLengthPath _ _ _, h => .inl (List.mem_append_left _ h)
  | .singleton, h | .empty, h => .inl h
  | .project _ _, h | .multiProject _ _, h => .inr h
  | .root arg, h | .slice arg _ _, h | .distinct arg, h | .reduced arg, h | .describe arg, h =>
    arg.mem_varNames_or_computedNames h
  | .filter arg _, h | .order arg _, h =>
    (arg.mem_varNames_or_computedNames h).imp_left (List.mem_append_right _)
  | .extend arg _, h =>
    (List.mem_append.mp h).elim
      (fun hArg => (arg.mem_varNames_or_computedNames hArg).imp (List.mem_append_right _)
        (List.mem_append_left _))
      fun hElement => .inr (List.mem_append_right _ hElement)
  | .group _ _ _, h =>
    (List.mem_append.mp h).imp_left fun hName =>
      List.mem_append_left _ (List.mem_append_left _ hName)
  | .service _ arg _, h =>
    (List.mem_append.mp h).elim
      (fun hArg => (arg.mem_varNames_or_computedNames hArg).imp_left (List.mem_append_right _))
      fun hEndpoint => .inl (List.mem_append_left _ hEndpoint)
  | .join left right, h | .union left right, h | .leftJoin left right none, h =>
    mem_varNames_or_computedNames_append left.mem_varNames_or_computedNames
      right.mem_varNames_or_computedNames h
  | .leftJoin left right (some _), h =>
    (mem_varNames_or_computedNames_append left.mem_varNames_or_computedNames
      right.mem_varNames_or_computedNames h).imp_left (List.mem_append_left _)
  | .intersection left _, h =>
    (left.mem_varNames_or_computedNames (List.mem_filter.mp h).1).imp (List.mem_append_left _)
      (List.mem_append_left _)
  | .difference left _, h =>
    (left.mem_varNames_or_computedNames h).imp_left (List.mem_append_left _)

/-- A left join holds back the names of the seed that occur in its right argument or in its condition and
that its left argument cannot bind. -/
theorem mem_heldBack :
    name ∈ heldBack left right condition seed ↔
      seed.binds name = true ∧ name ∉ left.bindingNames ∧
        (name ∈ right.varNames ∨ ∃ x ∈ condition, name ∈ x.varNames) := by
  have hOccurs : name ∈ right.varNames ++ (condition.map Expr.varNames).getD [] ↔
      name ∈ right.varNames ∨ ∃ x ∈ condition, name ∈ x.varNames := by
    cases condition <;> simp
  rw [heldBack, LeftJoining.problemNames, List.mem_filter, mem_sortedNames, hOccurs]
  simp only [Bool.and_eq_true, Bool.not_eq_true', List.contains_eq_mem, decide_eq_false_iff_not]
  tauto

/-- Of any plan something can be said that is true of all rows. -/
theorem handsOver_any (plan : Plan) : plan.HandsOver env (fun _ => True) seed scope := by
  refine Emission.ensures_of_forall _ (fun _ => trivial) fun p => ⟨fun _ => True, trivial, ?_⟩
  exact fun q path _ => Emission.ensures_of_forall _ (fun _ => trivial) fun _ => trivial

/-- A corrected row agrees with the seed, and binds what was held back as the seed does. -/
theorem agrees_of_correct? {names : List String} {row corrected : Solution}
    (hNames : ∀ name ∈ names, seed.binds name = true)
    (h : (⟨seed, names⟩ : Correcting).correct? row = some corrected) :
    seed.compatible corrected = true ∧ Solution.AgreeOn names corrected seed := by
  rw [Correcting.correct?_eq, Option.ite_none_right_eq_some] at h
  obtain ⟨hCompatible, hRow⟩ := h
  rw [← Option.some.inj hRow]
  have hAgree : ∀ name x y, seed.get? name = some x → row.get? name = some y → x = y :=
    Solution.compatible_iff.mp hCompatible
  constructor
  · rw [Solution.compatible_iff]
    intro name x y hSeed hBoth
    rw [Solution.get?_union] at hBoth
    cases hBound : row.get? name with
    | some z =>
        rw [hBound, Option.some_or] at hBoth
        exact hAgree name x y hSeed (hBound.trans hBoth)
    | none =>
        rw [hBound, Option.none_or, Solution.restrict, Solution.get?_filterNames,
          Option.ite_none_right_eq_some] at hBoth
        exact Option.some.inj (hSeed.symm.trans hBoth.2)
  · intro name hName
    obtain ⟨x, hSeed⟩ := Option.isSome_iff_exists.mp (hNames name hName)
    rw [Solution.get?_union, Solution.agreeOn_restrict seed names name hName, hSeed]
    cases hBound : row.get? name with
    | none => rfl
    | some y => rw [hAgree name x y hSeed hBound, Option.some_or]

/-- Whatever its arguments are, a left join that holds back names hands over rows that agree with the
seed, also on the names that it has not noticed. -/
theorem handsOver_corrected (hHeld : heldBack left right condition seed ≠ []) :
    (leftJoin left right condition).HandsOver env
      (fun row => seed.compatible row = true ∧
        Solution.AgreeOn (heldBack left right condition seed) row seed) seed scope :=
  handsOver_leftJoin left.handsOver_any (fun _ => id) (fun _ _ => right.handsOver_any)
    (fun hNone => absurd hNone hHeld) fun _ _ _ =>
      agrees_of_correct? fun _ hName => (mem_heldBack.mp hName).1

/-- A left join holds back the names of the seed that its left argument cannot bind, as far as its right
argument or its condition mentions them; of the names that the right argument may bind it misses
at most those that are computed there. If any name is held back, no row that comes of the left join,
pushed or read, has another value for it, or for any name of the seed, than the seed. -/
theorem leftJoin_agrees_with_seed {e : Evaluation} :
    let plan := leftJoin left right condition
    let held := heldBack left right condition seed
    (∀ name, name ∈ held ↔ seed.binds name = true ∧ name ∉ left.bindingNames ∧
      (name ∈ right.varNames ∨ ∃ x ∈ condition, name ∈ x.varNames)) ∧
    (∀ name, seed.binds name = true → name ∉ left.bindingNames → name ∈ right.bindingNames →
      name ∈ held ∨ name ∈ right.computedNames) ∧
    (held ≠ [] →
      (∀ {t p}, Execution (e.environmentOf plan) (plan.start (e.environmentOf plan) seed scope) t p →
        ∀ row more, Event.row row more ∈ t →
          seed.compatible row = true ∧ ∀ name ∈ held, row.get? name = seed.get? name) ∧
      ∀ clock row, .ok row ∈ (e.openAt plan seed scope clock).rest.1 →
        seed.compatible row = true ∧ ∀ name ∈ held, row.get? name = seed.get? name) := by
  intro plan held
  refine ⟨fun name => mem_heldBack, fun name hSeed hLeft hRight => ?_, fun hHeld => ?_⟩
  · rcases right.mem_varNames_or_computedNames hRight with hOccurs | hComputed
    · exact .inl (mem_heldBack.mpr ⟨hSeed, hLeft, .inl hOccurs⟩)
    · exact .inr hComputed
  · have hHandsOver : plan.HandsOver (e.environmentOf plan) _ seed scope := handsOver_corrected hHeld
    refine ⟨fun execution => (execution.emits hHandsOver).1, fun clock => ?_⟩
    exact (e.holds_launch hHandsOver clock).rest e.patience

/-- The right argument has one name from a table, which is held back, and computes another one. A row
with another value for the computed one is left out. -/
theorem leftJoin_agrees_with_seed_table :
    let right : Plan := .extend (.inline ["z"] [.ofList [("z", .integer 1)]])
      [("y", .constant (.integer 2))]
    let plan : Plan := .leftJoin .singleton right none
    let e : Evaluation := ⟨(Environment.ofDataset .empty).toCollaborators, 1, .unlimited 0, 9⟩
    let seed : Solution := .ofList [("y", .integer 1), ("z", .integer 1)]
    heldBack .singleton right none seed = ["z"] ∧ "y" ∈ right.computedNames ∧
      (∀ {t p}, Execution (e.environmentOf plan) (plan.start (e.environmentOf plan) seed .root) t p →
        ∀ row more, Event.row row more ∈ t → seed.compatible row = true) ∧
      (e.openAt plan seed .root (.starting 0)).rest.1 = [] := by
  intro right plan e seed
  have hHeld : heldBack .singleton right none seed = ["z"] := by
    simp [heldBack, LeftJoining.problemNames, sortedNames, right, varNames, bindingNames,
      elementVarNames, Expr.varNames]
    decide
  obtain ⟨-, -, hAll⟩ := @leftJoin_agrees_with_seed .singleton right none seed .root e
  refine ⟨hHeld, by simp [right, computedNames], fun execution row more hMem => ?_, by cbv⟩
  exact ((hAll (by simp [hHeld])).1 execution row more hMem).1

/-- Where a name is computed only, it is not held back, and a row may have another value for it than the
seed. -/
theorem leftJoin_misses_computed :
    let right : Plan := .extend .singleton [("z", .constant (.integer 2))]
    let plan : Plan := .leftJoin .singleton right none
    let e : Evaluation := ⟨(Environment.ofDataset .empty).toCollaborators, 1, .unlimited 0, 5⟩
    let seed : Solution := .ofList [("z", .integer 1)]
    let row : Solution := .ofList [("z", .integer 2)]
    seed.binds "z" = true ∧ "z" ∉ Plan.singleton.bindingNames ∧ "z" ∈ right.bindingNames ∧
      heldBack .singleton right none seed = [] ∧ row.get? "z" ≠ seed.get? "z" ∧ ∃ steps t p,
        Run (e.environmentOf plan) (plan.start (e.environmentOf plan) seed .root) steps t p ∧
          t.rows = {row} := by
  intro right plan e seed row
  have hHeld : heldBack .singleton right none seed = [] := by
    rw [List.eq_nil_iff_forall_not_mem]
    intro name hMem
    obtain ⟨-, -, hOccurs⟩ := mem_heldBack.mp hMem
    simp [right, varNames, elementVarNames, Expr.varNames] at hOccurs
  refine ⟨by decide, by simp [bindingNames], by simp [right, bindingNames], hHeld, by decide, ?_⟩
  obtain ⟨steps, t, p, run, -, hHeard, -⟩ := e.run_of_push plan seed (.starting 0)
  refine ⟨steps, t, p, run, ?_⟩
  have hRows : (e.push Recorder.consumer plan seed (.starting 0, .new none none)).2.rows = [row] := by
    decide +kernel
  rw [hHeard] at hRows
  have hAccepted : t.accepted = [row] := by simpa [Recorder.hear, Recorder.new] using hRows
  rw [Trace.rows, hAccepted]
  rfl

end Plan

end SolutionFlow
