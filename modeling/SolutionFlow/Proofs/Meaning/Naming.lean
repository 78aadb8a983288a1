import SolutionFlow.Proofs.Expression.Names
import SolutionFlow.Proofs.Flow.Execution
import SolutionFlow.Proofs.Flow.Reading
import SolutionFlow.Proofs.Meaning.Handover
import SolutionFlow.Proofs.Meaning.Pattern

/-! The names of a plan are sound. A row that comes of a plan binds names of the plan and of the seed, and
no others, as long as those who answer for inline tables and paths keep to the names that they declare.
The scopes of filters and of the conditions of left joins rest on this. -/
namespace SolutionFlow

variable {env : Environment} {seed : Solution} {names : List String}

/-- A match binds variables of the pattern only. -/
theorem QuadPattern.mem_variableNames_of_matching {p : QuadPattern} {q : Quad} {m : Solution}
    (h : p.matching? q = some m) {name : String} (hBinds : m.binds name = true) :
    name ∈ Slot.variableNames p.slots := by
  rw [matching?, Option.ite_none_left_eq_some] at h
  obtain ⟨spo, g, hSPO, hG, hLast⟩ := Solution.both?_eq_some h.2
  obtain ⟨sp, o, hSP, hO, hThird⟩ := Solution.both?_eq_some hSPO
  obtain ⟨s, p', hS, hP, hSecond⟩ := Solution.both?_eq_some hSP
  have hGraph : g.binds name = true → ∃ slot, p.graph = some slot ∧ slot.constant = none ∧
      slot.name = name := by
    intro hBound
    unfold graphMatching? at hG
    split at hG
    next slot graph hSlot _ => exact ⟨slot, hSlot, (Slot.binds_of_matching hG).mp hBound⟩
    next =>
      rw [← Option.some.inj hG] at hBound
      cases hBound
  rw [Solution.binds_of_merge? hLast, Solution.binds_of_merge? hThird, Solution.binds_of_merge? hSecond]
    at hBinds
  simp only [Bool.or_eq_true, Slot.binds_of_matching hS, Slot.binds_of_matching hP,
    Slot.binds_of_matching hO] at hBinds
  rw [Slot.mem_variableNames]
  rcases hBinds with ((hSubject | hPredicate) | hObject) | hBound
  · exact ⟨p.subject, by simp [slots], hSubject⟩
  · exact ⟨p.predicate, by simp [slots], hPredicate⟩
  · exact ⟨p.object, by simp [slots], hObject⟩
  · obtain ⟨slot, hSlot, hVariable⟩ := hGraph hBound
    exact ⟨slot, by simp [slots, hSlot], hVariable⟩

/-- A merge with the seed adds what is merged. -/
theorem Solution.addsOnly_of_merge? {row m : Solution} (h : seed.merge? m = some row)
    (hNames : ∀ name, m.binds name = true → name ∈ names) : seed.AddsOnly names row := by
  intro name hBinds
  rw [binds_of_merge? h, Bool.or_eq_true] at hBinds
  exact hBinds.symm.imp_left (hNames name)

/-- Paths of length zero bind no other names than those of their ends, over the seed. -/
def PathFinder.KeepsNames (finder : PathFinder) : Prop :=
  ∀ (ends : PathEnds) (seed : Solution),
    (finder.zeroLength ends (ends.subject.resolve seed) (ends.object.resolve seed) seed).result.Offers
      (seed.AddsOnly (Slot.variableNames ends.slots))

/-- Groups are evaluated as they should, and paths keep to their names. -/
structure Environment.KeepsNames (env : Environment) : Prop where
  group : ∀ evaluator, env.group = some evaluator → evaluator = Grouping.eval
  path : ∀ finder, env.path = some finder → finder.KeepsNames

/-- A finder of paths over a store without statements: a known end is as far as a path leads. -/
def PathFinder.reflexive : PathFinder where
  zeroLength ends subject object seed :=
    match subject, object with
    | some node, none => .ofRows [seed.insert ends.object.name node]
    | none, some node => .ofRows [seed.insert ends.subject.name node]
    | _, _ => .ofRows []
  arbitraryLength _ _ _ _ _ := return .ofRows []

theorem PathFinder.keepsNames_reflexive : reflexive.KeepsNames := by
  intro ends seed
  have hVariable : ∀ slot ∈ ends.slots, slot.resolve seed = none →
      slot.name ∈ Slot.variableNames ends.slots := by
    intro slot hMem hNone
    exact Slot.mem_variableNames.mpr ⟨slot, hMem, (Option.or_eq_none_iff.mp hNone).1, rfl⟩
  have hRefl := seed.addsOnly_refl (Slot.variableNames ends.slots)
  unfold reflexive
  dsimp only
  split
  next node _ hNone =>
    refine Iteration.offers_ofRows.mpr (List.forall_mem_singleton.mpr (hRefl.insert ?_ node))
    exact hVariable ends.object (by simp [PathEnds.slots]) hNone
  next node hNone _ =>
    refine Iteration.offers_ofRows.mpr (List.forall_mem_singleton.mpr (hRefl.insert ?_ node))
    exact hVariable ends.subject (by simp [PathEnds.slots]) hNone
  next => exact Iteration.offers_ofRows.mpr (by simp)

/-- What queries work with keeps to names at whatever depth they are nested. -/
theorem Evaluation.keepsNames (e : Evaluation)
    (hGroup : ∀ evaluator, e.collaborators.group = some evaluator → evaluator = Grouping.eval)
    (hPath : ∀ finder, e.collaborators.path = some finder → finder.KeepsNames) (depth : Nat) :
    (e.environment depth).KeepsNames := by
  cases depth with
  | zero => exact ⟨hGroup, hPath⟩
  | succ depth => exact ⟨hGroup, hPath⟩

namespace Plan

/-- Plans without external sources, paths of arbitrary length, descriptions and services, whose inline rows
bind declared names only. -/
def KeepsNames : Plan → Prop
  | .external _ | .arbitraryLengthPath .. | .describe _ | .service .. => False
  | .inline names rows => ∀ row ∈ rows, ∀ name, row.binds name = true → name ∈ names
  | .root arg | .project arg _ | .multiProject arg _ | .filter arg _ | .extend arg _ | .slice arg _ _
  | .distinct arg | .reduced arg | .group arg _ _ | .order arg _ => arg.KeepsNames
  | .join left right | .leftJoin left right _ | .union left right | .intersection left right
  | .difference left right => left.KeepsNames ∧ right.KeepsNames
  | .pattern _ | .zeroLengthPath _ | .singleton | .empty => True

/-- A plan hands over rows that bind only its names and those of the seed. -/
abbrev HandsOverNames (env : Environment) (plan : Plan) (seed : Solution) (scope : Scope) : Prop :=
  plan.HandsOver env (seed.AddsOnly plan.bindingNames) seed scope

variable {arg left right plan : Plan} {scope : Scope}

theorem handsOverNames_pattern (p : QuadPattern) : (pattern p).HandsOverNames env seed scope := by
  refine ensures_calling fun clock => Iteration.offers_ofRows.mpr fun row hRow => ?_
  obtain ⟨q, -, hBind⟩ := List.mem_filterMap.mp hRow
  rw [QuadPattern.bind?_eq] at hBind
  obtain ⟨m, hMatch, hMerge⟩ := Option.bind_eq_some_iff.mp hBind
  exact Solution.addsOnly_of_merge? hMerge fun _ => QuadPattern.mem_variableNames_of_matching hMatch

theorem handsOverNames_inline {rows : List Solution} (h : (inline names rows).KeepsNames) :
    (inline names rows).HandsOverNames env seed scope := by
  refine ensures_calling fun clock => Iteration.offers_ofRows.mpr fun row hRow => ?_
  split at hRow
  · exact fun name hBinds => .inl (h row hRow name hBinds)
  · obtain ⟨source, hSource, hAssign⟩ := List.mem_filterMap.mp hRow
    exact Solution.addsOnly_of_merge? (Solution.merge?_of_assign? hAssign) (h source hSource)

theorem handsOverNames_zeroLengthPath (hEnv : env.KeepsNames) (ends : PathEnds) :
    (zeroLengthPath ends).HandsOverNames env seed scope := by
  rw [HandsOverNames, HandsOver, start, Process.zeroLength]
  split
  · split
    · exact ensures_single (seed.addsOnly_refl _)
    · exact ensures_nothing
  · exact ensures_callingOn fun finder hPath clock => hEnv.path finder hPath ends seed

/-- Names that the left argument of a left join has from what is left of the seed, and its right one from
the left rows, are names of the join and of the seed. -/
theorem handsOverNames_leftJoin {condition : Option Expr}
    (hLeft : ∀ seed, left.HandsOverNames env seed scope.descend)
    (hRight : ∀ row, right.HandsOverNames env row scope.descend) :
    (leftJoin left right condition).HandsOverNames env seed scope := by
  let rest := seed.without (heldBack left right condition seed)
  refine handsOver_leftJoin (hLeft rest) ?_ ?_ ?_ fun row corrected => Correcting.addsOnly_of_correct?
  · exact fun row hRow => hRow.mono fun _ => List.mem_append_left right.bindingNames
  · exact fun row hRow => (hRight row).mono fun _ => hRow.trans
  · exact fun _ row hRow name hBinds => (hRow name hBinds).imp_right Solution.binds_of_without

/-- From whatever seed, a plan that keeps to its names hands over rows that do so. -/
theorem handsOverNames (hEnv : env.KeepsNames) :
    (plan : Plan) → plan.KeepsNames → (seed : Solution) → (scope : Scope) →
      plan.HandsOverNames env seed scope
  | .external _, h, _, _ | .arbitraryLengthPath _ _ _, h, _, _ | .describe _, h, _, _
  | .service _ _ _, h, _, _ => h.elim
  | .pattern p, _, _, _ => handsOverNames_pattern p
  | .inline _ _, h, _, _ => handsOverNames_inline h
  | .zeroLengthPath ends, _, _, _ => handsOverNames_zeroLengthPath hEnv ends
  | .singleton, _, seed, _ => ensures_single (seed.addsOnly_refl _)
  | .empty, _, _, _ => ensures_nothing
  | .root arg, h, seed, _ => handsOver_root (arg.handsOverNames hEnv h seed _)
  | .filter arg _, h, seed, _ => handsOver_filter (arg.handsOverNames hEnv h seed _)
  | .slice arg _ _, h, seed, _ => handsOver_slice (arg.handsOverNames hEnv h seed _)
  | .distinct arg, h, seed, _ => handsOver_distinct (arg.handsOverNames hEnv h seed _)
  | .reduced arg, h, seed, _ => handsOver_reduced (arg.handsOverNames hEnv h seed _)
  | .order arg _, h, seed, _ => handsOver_order (arg.handsOverNames hEnv h seed _)
  | .project arg _, h, seed, _ =>
      handsOver_project (arg.handsOverNames hEnv h seed _) fun _ _ =>
        Projection.addsOnly_collect (seed.addsOnly_refl _) fun _ => id
  | .multiProject arg _, h, seed, _ =>
      handsOver_multiProject (arg.handsOverNames hEnv h seed _) fun _ _ list hMem =>
        Projection.addsOnly_collect (seed.addsOnly_empty _) fun _ hName =>
          List.mem_flatMap.mpr ⟨list, hMem, hName⟩
  | .extend arg _, h, seed, _ =>
      handsOver_extend (arg.handsOverNames hEnv h seed _) fun _ _ _ _ hRow hExtend =>
        hRow.trans (Extending.addsOnly_of_extend hExtend)
  | .group _ _ _, _, _, _ =>
      handsOver_group hEnv.group fun _ _ _ hRows _ => Grouping.addsOnly_of_eval hRows
  | .join left right, h, seed, _ =>
      handsOver_join (left.handsOverNames hEnv h.1 seed _) fun row hRow =>
        (right.handsOverNames hEnv h.2 row _).mono fun _ => hRow.trans
  | .leftJoin left right _, h, _, _ =>
      handsOverNames_leftJoin (fun seed => left.handsOverNames hEnv h.1 seed _)
        (fun row => right.handsOverNames hEnv h.2 row _)
  | .union left right, h, seed, _ =>
      handsOver_union
        ((left.handsOverNames hEnv h.1 seed _).mono fun _ hRow =>
          hRow.mono fun _ => List.mem_append_left _)
        ((right.handsOverNames hEnv h.2 seed _).mono fun _ hRow =>
          hRow.mono fun _ => List.mem_append_right _)
  | .intersection left right, h, seed, _ =>
      handsOver_intersection (left.handsOverNames hEnv h.1 seed _) (right.handsOverNames hEnv h.2 seed _)
        fun _ => Solution.AddsOnly.inter
  | .difference left right, h, seed, _ =>
      handsOver_difference (left.handsOverNames hEnv h.1 seed _) (right.handsOverNames hEnv h.2 seed _)

/-- The names of a plan are sound. Every row that comes of it, pushed or read, binds only names of the plan
and those that the seed binds, in whatever order the steps are made and whatever the consumer replies. -/
theorem bindingNames_sound {e : Evaluation} {plan : Plan} {seed : Solution} {scope : Scope}
    (hGroup : ∀ evaluator, e.collaborators.group = some evaluator → evaluator = Grouping.eval)
    (hPath : ∀ finder, e.collaborators.path = some finder → finder.KeepsNames)
    (hPlan : plan.KeepsNames) :
    (∀ {t p}, Execution (e.environmentOf plan) (plan.start (e.environmentOf plan) seed scope) t p →
      ∀ row more, Event.row row more ∈ t → seed.AddsOnly plan.bindingNames row) ∧
    ∀ clock row, .ok row ∈ (e.openAt plan seed scope clock).rest.1 →
      seed.AddsOnly plan.bindingNames row := by
  have hEnv : (e.environmentOf plan).KeepsNames := e.keepsNames hGroup hPath plan.depth
  have hHandsOver := plan.handsOverNames hEnv hPlan seed scope
  refine ⟨fun execution => (execution.emits hHandsOver).1, fun clock => ?_⟩
  exact (e.holds_launch hHandsOver clock).rest e.patience

/-- A path from a known end leads to a name of the other end; the table on the right has that name. -/
theorem bindingNames_sound_path :
    let ends : PathEnds := ⟨.all, .ofVariable "a", .ofVariable "b", none⟩
    let plan : Plan := .intersection (.zeroLengthPath ends)
      (.inline ["b"] [.ofList [("b", .integer 1)]])
    let e : Evaluation :=
      ⟨{ (Environment.ofDataset .empty).toCollaborators with path := some .reflexive }, 1,
        .unlimited 0, 9⟩
    let seed : Solution := .ofList [("a", .integer 1)]
    plan.bindingNames = ["b"] ∧
      (∀ {t p}, Execution (e.environmentOf plan) (plan.start (e.environmentOf plan) seed .root) t p →
        ∀ row more, Event.row row more ∈ t → ∀ name, row.binds name = true → name = "b" ∨ name = "a") ∧
      (e.openAt plan seed .root (.starting 0)).rest.1.length = 1 := by
  intro ends plan e seed
  have hNames : plan.bindingNames = ["b"] := by decide
  have hGroup : ∀ evaluator, e.collaborators.group = some evaluator → evaluator = Grouping.eval :=
    fun _ hSome => by cases hSome
  have hPath : ∀ finder, e.collaborators.path = some finder → finder.KeepsNames := by
    rintro finder hSome
    obtain rfl := Option.some.inj hSome
    exact PathFinder.keepsNames_reflexive
  have hOne : ∀ {name other : String}, (Solution.ofList [(name, .integer 1)]).binds other = true →
      other = name := by
    intro name other hBinds
    exact ((Solution.empty.binds_insert name _ other).mp hBinds).resolve_right Bool.false_ne_true
  have hPlan : plan.KeepsNames := by
    refine ⟨trivial, fun row hMem name hBinds => ?_⟩
    rw [List.mem_singleton.mp hMem] at hBinds
    exact List.mem_singleton.mpr (hOne hBinds)
  refine ⟨hNames, fun execution row more hMem name hBinds => ?_, by decide +kernel⟩
  have hSound := (bindingNames_sound hGroup hPath hPlan).1 execution row more hMem name hBinds
  rw [hNames, List.mem_singleton] at hSound
  exact hSound.imp_right hOne

end Plan

end SolutionFlow
