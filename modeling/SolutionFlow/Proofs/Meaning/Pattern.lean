import Mathlib.Data.List.Basic
import SolutionFlow.Dataset
import SolutionFlow.Proofs.Meaning.Compatibility

/-! What patterns mean. Each place of a pattern that fits a term gives a solution of its own, and a
statement matches if all of these can be merged. A search from a seed finds the same matches as far as
they are compatible with the seed: looking up the terms that the seed binds, and binding place by
place, leaves nothing out and lets nothing else in. -/
namespace SolutionFlow

namespace Solution

variable {x y z : Option Solution} {m : Solution}

/-- The merge of two solutions, if there are two and they are compatible. -/
def both? (x y : Option Solution) : Option Solution := x.bind fun a => y.bind a.merge?

theorem both?_some (a : Solution) (y : Option Solution) : both? (some a) y = y.bind a.merge? := rfl

theorem both?_assoc (x y z : Option Solution) : both? (both? x y) z = both? x (both? y z) := by
  cases x with
  | none => rfl
  | some a =>
      cases y with
      | none => rfl
      | some b =>
          cases z with
          | none =>
              cases h : a.merge? b <;> simp [both?, h]
          | some c =>
              simp only [both?, Option.bind_some]
              exact merge?_assoc a b c

theorem both?_eq_some (h : both? x y = some m) :
    ∃ a b, x = some a ∧ y = some b ∧ a.merge? b = some m := by
  obtain ⟨a, hX, hRest⟩ := Option.bind_eq_some_iff.mp h
  obtain ⟨b, hY, hMerge⟩ := Option.bind_eq_some_iff.mp hRest
  exact ⟨a, b, hX, hY, hMerge⟩

/-- Whether all bindings of one solution are in another. -/
def Within (a m : Solution) : Prop := ∀ name value, a.get? name = some value →
  m.get? name = some value

theorem Within.trans {a b c : Solution} (h : a.Within b) (hNext : b.Within c) : a.Within c :=
  fun name value hA => hNext name value (h name value hA)

theorem within_of_merge? {a b : Solution} (h : a.merge? b = some m) : a.Within m ∧ b.Within m :=
  ⟨fun _ _ hA => get?_of_merge?_left h hA, fun _ _ hB => get?_of_merge?_right h hB⟩

end Solution

open Solution

namespace Slot

/-- What a place of a pattern binds on a term, if it fits. -/
def matching? (slot : Slot) (term : Term) : Option Solution :=
  match slot.constant with
  | some c => if c = term then some .empty else none
  | none => some (Solution.empty.insert slot.name term)

/-- To bind a place from a row on is to merge what the place binds into the row. -/
theorem bindSlot_eq (row : Solution) (slot : Slot) (term : Term) :
    QuadPattern.bindSlot row slot term = (slot.matching? term).bind row.merge? := by
  unfold QuadPattern.bindSlot matching?
  cases slot.constant with
  | some c =>
      by_cases hSame : c = term
      · simp [hSame, merge?_empty]
      · simp [hSame]
  | none =>
      have hOne : ∀ name, (Solution.empty.insert slot.name term).get? name =
          if name = slot.name then some term else none := by simp
      cases hBound : row.get? slot.name with
      | some bound =>
          by_cases hSame : bound = term
          · subst hSame
            simp only [↓reduceIte, Option.bind_some]
            rw [eq_comm, merge?_eq_some_iff, compatible_iff]
            refine ⟨fun name x y hX hY => ?_, ext_get? fun name => ?_⟩
            · rw [hOne, Option.ite_none_right_eq_some] at hY
              obtain ⟨rfl, hY⟩ := hY
              exact Option.some.inj (hX.symm.trans (hBound.trans hY))
            · rw [get?_union, hOne]
              by_cases hName : name = slot.name
              · simp [hName, hBound]
              · simp [hName]
          · simp only [hSame, ↓reduceIte, Option.bind_some]
            rw [eq_comm, merge?_eq_none_iff, ← Bool.not_eq_true, compatible_iff]
            exact fun h => hSame (h slot.name bound term hBound (by simp [hOne]))
      | none =>
          simp only [Option.bind_some]
          rw [eq_comm, merge?_eq_some_iff, compatible_iff]
          refine ⟨fun name x y hX hY => ?_, ext_get? fun name => ?_⟩
          · rw [hOne, Option.ite_none_right_eq_some] at hY
            simp [hY.1, hBound] at hX
          · rw [get?_union, hOne, get?_insert]
            by_cases hName : name = slot.name
            · simp [hName, hBound]
            · simp [hName]

theorem mem_variableNames {slots : List Slot} {name : String} :
    name ∈ variableNames slots ↔ ∃ slot ∈ slots, slot.constant = none ∧ slot.name = name := by
  simp [variableNames, isConstant, and_assoc]

/-- A place binds its name, if it is that of a variable, and no other. -/
theorem binds_of_matching {slot : Slot} {term : Term} {row : Solution}
    (h : slot.matching? term = some row) {name : String} :
    row.binds name = true ↔ slot.constant = none ∧ slot.name = name := by
  unfold matching? at h
  cases hConstant : slot.constant with
  | some c =>
      simp only [hConstant, Option.ite_none_right_eq_some, Option.some.injEq] at h
      simp [← h.2, binds]
  | none =>
      simp only [hConstant, Option.some.injEq] at h
      by_cases hName : name = slot.name
      · simp [← h, binds, hName]
      · simp [← h, binds, hName, Ne.symm hName]

/-- A place that fits a term, in a match that is compatible with the seed, does not look for another
term. -/
theorem isWanted_of_matching {slot : Slot} {term : Term} {row seed m : Solution}
    (h : slot.matching? term = some row) (hWithin : row.Within m)
    (hCompatible : seed.compatible m = true) :
    Dataset.isWanted (slot.resolve seed) term = true := by
  unfold matching? at h
  unfold resolve
  cases hConstant : slot.constant with
  | some c =>
      simp only [hConstant, Option.ite_none_right_eq_some] at h
      simp [Dataset.isWanted, h.1]
  | none =>
      simp only [hConstant, Option.some.injEq] at h
      subst h
      cases hBound : seed.get? slot.name with
      | none => rfl
      | some bound =>
          have hTerm := hWithin slot.name term (by simp)
          have hSame := compatible_iff.mp hCompatible slot.name bound term hBound hTerm
          simp [Dataset.isWanted, hSame]

end Slot

namespace QuadPattern

/-- What the graph of a statement binds; nothing, unless the pattern has a place for it. -/
def graphMatching? (p : QuadPattern) (q : Quad) : Option Solution :=
  match p.graph, q.graph with
  | some slot, some graph => slot.matching? graph
  | _, _ => some .empty

/-- What a pattern binds on a statement, if it matches. -/
def matching? (p : QuadPattern) (q : Quad) : Option Solution :=
  if p.scope = .named ∧ q.graph = none then none
  else
    both? (both? (both? (p.subject.matching? q.subject) (p.predicate.matching? q.predicate))
      (p.object.matching? q.object)) (p.graphMatching? q)

/-- To match from a seed on is to match, and then to merge with the seed. -/
theorem bind?_eq (p : QuadPattern) (seed : Solution) (q : Quad) :
    p.bind? seed q = (p.matching? q).bind seed.merge? := by
  unfold bind? matching?
  split
  · rfl
  · rw [← both?_some, ← both?_assoc, ← both?_assoc, ← both?_assoc]
    simp only [Slot.bindSlot_eq, both?, Option.bind_some, Option.bind_assoc, Option.bind_eq_bind]
    cases hPlace : p.graph with
    | none => simp [graphMatching?, hPlace, merge?_empty]
    | some slot =>
        cases hQuad : q.graph with
        | none => simp [graphMatching?, hQuad, merge?_empty]
        | some graph => simp [graphMatching?, hPlace, hQuad]

/-- A match binds the variables of the pattern. -/
theorem binds_of_matching {p : QuadPattern} {q : Quad} {m : Solution} (hGraph : p.graph = none)
    (h : p.matching? q = some m) {name : String} :
    m.binds name = true ↔ name ∈ Slot.variableNames p.slots := by
  rw [matching?, Option.ite_none_left_eq_some] at h
  obtain ⟨spo, g, hSPO, hG, hLast⟩ := both?_eq_some h.2
  obtain ⟨sp, o, hSP, hO, hThird⟩ := both?_eq_some hSPO
  obtain ⟨s, p', hS, hP, hSecond⟩ := both?_eq_some hSP
  have hEmpty : g.binds name = false := by
    rw [graphMatching?, hGraph] at hG
    rw [← Option.some.inj hG]
    rfl
  rw [binds_of_merge? hLast, binds_of_merge? hThird, binds_of_merge? hSecond, hEmpty]
  simp only [Bool.or_false, Bool.or_eq_true, Slot.binds_of_matching hS, Slot.binds_of_matching hP,
    Slot.binds_of_matching hO]
  simp [Slot.mem_variableNames, slots, hGraph, or_assoc]

/-- A match is compatible with the seed only if the statement is among those that are looked up. -/
theorem found_of_matching {p : QuadPattern} {q : Quad} {seed m : Solution}
    (hGraph : ∀ slot ∈ p.graph, p.scope = .named ∨ slot.resolve seed = none)
    (hMatch : p.matching? q = some m) (hCompatible : seed.compatible m = true) :
    (Dataset.isWanted (p.subject.resolve seed) q.subject &&
      Dataset.isWanted (p.predicate.resolve seed) q.predicate &&
      Dataset.isWanted (p.object.resolve seed) q.object &&
      ((p.graph.bind fun slot => slot.resolve seed).isNone ||
        decide (q.graph = p.graph.bind fun slot => slot.resolve seed))) = true := by
  unfold matching? at hMatch
  rw [Option.ite_none_left_eq_some] at hMatch
  obtain ⟨hScope, hMatch⟩ := hMatch
  obtain ⟨spo, g, hSPO, hG, hLast⟩ := both?_eq_some hMatch
  obtain ⟨sp, o, hSP, hO, hThird⟩ := both?_eq_some hSPO
  obtain ⟨s, p', hS, hP, hSecond⟩ := both?_eq_some hSP
  have hInSPO := (within_of_merge? hLast).1
  have hInSP := (within_of_merge? hThird).1.trans hInSPO
  have hSubject := Slot.isWanted_of_matching hS ((within_of_merge? hSecond).1.trans hInSP)
    hCompatible
  have hPredicate := Slot.isWanted_of_matching hP ((within_of_merge? hSecond).2.trans hInSP)
    hCompatible
  have hObject := Slot.isWanted_of_matching hO ((within_of_merge? hThird).2.trans hInSPO) hCompatible
  rw [hSubject, hPredicate, hObject, Bool.and_self, Bool.and_self, Bool.true_and]
  cases hPlace : p.graph with
  | none => rfl
  | some slot =>
      cases hQuad : q.graph with
      | none =>
          obtain hNamed | hNone := hGraph slot hPlace
          · exact absurd ⟨hNamed, hQuad⟩ hScope
          · rw [Option.bind_some, hNone]
            rfl
      | some graph =>
          simp only [graphMatching?, hPlace, hQuad] at hG
          have hFound := Slot.isWanted_of_matching hG (within_of_merge? hLast).2 hCompatible
          rw [Option.bind_some]
          cases hResolve : slot.resolve seed with
          | none => rfl
          | some wanted =>
              rw [hResolve] at hFound
              have hSame : wanted = graph := by simpa [Dataset.isWanted] using hFound
              simp [hSame]

/-- A search from a seed finds all matches that are compatible with the seed, merged with it, unless it looks
for a graph among all statements. -/
theorem solutions_eq (p : QuadPattern) (d : Dataset) (seed : Solution)
    (hGraph : ∀ slot ∈ p.graph, p.scope = .named ∨ slot.resolve seed = none) :
    p.solutions d seed = (d.quads.filterMap p.matching?).filterMap seed.merge? := by
  rw [solutions, Dataset.find, List.filterMap_filter, List.filterMap_filterMap]
  refine congrArg (fun f => d.quads.filterMap f) (funext fun q => ?_)
  rw [bind?_eq]
  split
  · rfl
  next hMissed =>
    cases hMatch : p.matching? q with
    | none => rfl
    | some m =>
        rw [Option.bind_some, eq_comm, merge?_eq_none_iff, ← Bool.not_eq_true]
        exact fun hCompatible => hMissed (found_of_matching hGraph hMatch hCompatible)

/-- A search that looks for a graph finds it among the named ones. -/
theorem solutions_named {p : QuadPattern} {d : Dataset} {seed : Solution} {slot : Slot} {graph : Term}
    (hPlace : p.graph = some slot) (hGraph : slot.resolve seed = some graph) :
    p.solutions d seed = { p with scope := .named }.solutions d seed := by
  rw [solutions, solutions]
  refine List.filterMap_congr fun q hMem => ?_
  have hQuad : q.graph = some graph := by
    have hFound := (List.mem_filter.mp hMem).2
    rw [hPlace, Option.bind_some, hGraph] at hFound
    simpa using (Bool.and_eq_true_iff.mp hFound).2
  simp [bind?, hQuad]

/-- A search from a seed finds what is found without one, merged with the seed, unless the seed names the graph
to look for among all statements. -/
theorem solutions_seeded (p : QuadPattern) (d : Dataset) (seed : Solution)
    (hGraph : ∀ slot ∈ p.graph,
      p.scope = .named ∨ slot.constant.isSome = true ∨ seed.binds slot.name = false) :
    p.solutions d seed = (p.solutions d .empty).filterMap seed.merge? := by
  have hAll : ∀ p : QuadPattern, (∀ slot ∈ p.graph, p.scope = .named ∨ slot.resolve seed = none) →
      (∀ slot ∈ p.graph, p.scope = .named ∨ slot.resolve .empty = none) →
        p.solutions d seed = (p.solutions d .empty).filterMap seed.merge? := by
    intro p hSeed hEmpty
    have hId : Solution.empty.merge? = some := funext empty_merge?
    rw [p.solutions_eq d seed hSeed, p.solutions_eq d .empty hEmpty, hId, List.filterMap_some]
  cases hPlace : p.graph with
  | none => exact hAll p (by simp [hPlace]) (by simp [hPlace])
  | some slot =>
      cases hConstant : slot.constant with
      | some graph =>
          have hFound : ∀ seed, slot.resolve seed = some graph := fun seed => by
            rw [Slot.resolve, hConstant, Option.some_or]
          rw [solutions_named hPlace (hFound seed), solutions_named hPlace (hFound .empty)]
          exact hAll _ (fun _ _ => .inl rfl) fun _ _ => .inl rfl
      | none =>
          have hFree : ∀ seed : Solution, p.scope = .named ∨ seed.binds slot.name = false →
              ∀ other ∈ p.graph, p.scope = .named ∨ other.resolve seed = none := by
            intro seed hOpen other hOther
            obtain rfl : slot = other := Option.some.inj (hPlace.symm.trans hOther)
            simpa [Slot.resolve, hConstant, binds] using hOpen
          have hOpen : p.scope = .named ∨ seed.binds slot.name = false := by
            simpa [hConstant] using hGraph slot hPlace
          exact hAll p (hFree seed hOpen) (hFree .empty (.inr rfl))

end QuadPattern

end SolutionFlow
