import SolutionFlow.Algebra.Names
import SolutionFlow.Proofs.Meaning.Bag
import SolutionFlow.Proofs.Meaning.Pattern

/-! What plans mean, from the bottom up: each operator combines the bags that its arguments mean, and
no argument knows of the others. Kinds of plans are told apart, for which the evaluation, that starts the
second argument on each row of the first, comes to the same rows. -/
namespace SolutionFlow

namespace Plan

/-- The solutions of a plan over a store. Other operators than these have no meaning here. -/
def meaning (d : Dataset) : Plan → Bag
  | .pattern p => (d.quads.filterMap p.matching? : List Solution)
  | .inline _ rows => (rows : List Solution)
  | .singleton => {.empty}
  | .join left right => .join (left.meaning d) (right.meaning d)
  | .leftJoin left right none => .leftJoin (left.meaning d) (right.meaning d)
  | .union left right => left.meaning d + right.meaning d
  | _ => 0

/-- Joins and unions of patterns and tables. A pattern with a place for the graph is only matched with
named graphs, and each row of a table binds something. -/
inductive Positive : Plan → Prop where
  | pattern {p : QuadPattern} (hGraph : p.graph = none ∨ p.scope = .named) : Positive (.pattern p)
  | inline {names : List String} {rows : List Solution} (hRows : ∀ row ∈ rows, row.isEmpty = false) :
      Positive (.inline names rows)
  | singleton : Positive .singleton
  | empty : Positive .empty
  | join {left right : Plan} (hLeft : Positive left) (hRight : Positive right) :
      Positive (.join left right)
  | union {left right : Plan} (hLeft : Positive left) (hRight : Positive right) :
      Positive (.union left right)

/-- Joins of patterns. -/
inductive Conjunctive : Plan → Prop where
  | pattern {p : QuadPattern} (hGraph : p.graph = none) : Conjunctive (.pattern p)
  | join {left right : Plan} (hLeft : Conjunctive left) (hRight : Conjunctive right) :
      Conjunctive (.join left right)

/-- Joins and left joins of patterns. Of the names that occur `outside`, the right argument of a left
join mentions only those that its left argument mentions too. -/
inductive WellDesigned : List String → Plan → Prop where
  | pattern {outside : List String} {p : QuadPattern} (hGraph : p.graph = none) :
      WellDesigned outside (.pattern p)
  | join {outside : List String} {left right : Plan}
      (hLeft : WellDesigned (right.varNames ++ outside) left)
      (hRight : WellDesigned (left.varNames ++ outside) right) :
      WellDesigned outside (.join left right)
  | leftJoin {outside : List String} {left right : Plan}
      (hShared : ∀ name ∈ right.varNames, name ∈ outside → name ∈ left.varNames)
      (hLeft : WellDesigned (right.varNames ++ outside) left)
      (hRight : WellDesigned (left.varNames ++ outside) right) :
      WellDesigned outside (.leftJoin left right none)

/-- What joins and unions of patterns and tables mean where others bind the names `outside`. A pattern finds
what it does from nothing. A variable for the graph, if it is not only matched with named graphs, is left to
the pattern: to look for a graph that someone else has bound would leave out the statements without one. -/
inductive Means (d : Dataset) : (String → Prop) → Plan → Bag → Prop where
  | pattern {outside : String → Prop} {p : QuadPattern}
      (hGraph : ∀ slot ∈ p.graph, p.scope = .named ∨ slot.constant.isSome = true ∨ ¬outside slot.name) :
      Means d outside (.pattern p) (p.solutions d .empty : List Solution)
  | inline {outside : String → Prop} {names : List String} {rows : List Solution}
      (hRows : ∀ row ∈ rows, row.isEmpty = false) : Means d outside (.inline names rows) rows
  | singleton {outside : String → Prop} : Means d outside .singleton {.empty}
  | empty {outside : String → Prop} : Means d outside .empty 0
  | join {outside : String → Prop} {left right : Plan} {a b : Bag} (hLeft : Means d outside left a)
      (hRight : Means d (fun name => outside name ∨ ∃ m ∈ a, m.binds name = true) right b) :
      Means d outside (.join left right) (.join a b)
  | union {outside : String → Prop} {left right : Plan} {a b : Bag} (hLeft : Means d outside left a)
      (hRight : Means d outside right b) : Means d outside (.union left right) (a + b)

/-- What a positive plan means does not depend on what is outside. -/
theorem Positive.means {d : Dataset} {plan : Plan} (h : plan.Positive) (outside : String → Prop) :
    Means d outside plan (plan.meaning d) := by
  induction h generalizing outside with
  | @pattern p hGraph =>
      have hNamed : ∀ slot ∈ p.graph, p.scope = .named := fun slot hPlace =>
        hGraph.resolve_left (by simp [Option.mem_def.mp hPlace])
      have hRows : p.solutions d .empty = d.quads.filterMap p.matching? := by
        have hId : Solution.empty.merge? = some := funext Solution.empty_merge?
        rw [p.solutions_eq d .empty fun slot hPlace => .inl (hNamed slot hPlace), hId,
          List.filterMap_some]
      rw [meaning, ← hRows]
      exact .pattern fun slot hPlace => .inl (hNamed slot hPlace)
  | inline hRows => exact .inline hRows
  | singleton => exact .singleton
  | empty => exact .empty
  | join hLeft hRight ihLeft ihRight => exact .join (ihLeft _) (ihRight _)
  | union hLeft hRight ihLeft ihRight => exact .union (ihLeft _) (ihRight _)

namespace WellDesigned

variable {d : Dataset} {outside : List String} {plan : Plan} {m : Solution} {name : String}

/-- A well-designed plan mentions no other names than its solutions may bind. -/
theorem bindingNames_eq (h : WellDesigned outside plan) : plan.bindingNames = plan.varNames := by
  induction h with
  | pattern hGraph => rw [bindingNames, varNames]
  | join hLeft hRight ihLeft ihRight => rw [bindingNames, varNames, ihLeft, ihRight]
  | leftJoin hShared hLeft hRight ihLeft ihRight => rw [bindingNames, varNames, ihLeft, ihRight]

/-- A solution of a well-designed plan binds no other names than the plan mentions. -/
theorem mem_varNames_of_binds (h : WellDesigned outside plan) (hMem : m ∈ plan.meaning d)
    (hBinds : m.binds name = true) : name ∈ plan.varNames := by
  induction h generalizing m with
  | pattern hGraph =>
      obtain ⟨q, -, hMatch⟩ := List.mem_filterMap.mp (Multiset.mem_coe.mp hMem)
      rw [varNames]
      exact (QuadPattern.binds_of_matching hGraph hMatch).mp hBinds
  | join hLeft hRight ihLeft ihRight =>
      obtain ⟨a, hA, b, hB, hMerge⟩ := Bag.mem_join.mp hMem
      rw [Solution.binds_of_merge? hMerge, Bool.or_eq_true] at hBinds
      rw [varNames, List.mem_append]
      exact hBinds.imp (ihLeft hA) (ihRight hB)
  | leftJoin hShared hLeft hRight ihLeft ihRight =>
      rw [varNames, List.mem_append]
      rcases Bag.mem_leftJoin hMem with hJoin | hAlone
      · obtain ⟨a, hA, b, hB, hMerge⟩ := Bag.mem_join.mp hJoin
        rw [Solution.binds_of_merge? hMerge, Bool.or_eq_true] at hBinds
        exact hBinds.imp (ihLeft hA) (ihRight hB)
      · exact .inl (ihLeft hAlone hBinds)

/-- A name that a well-designed plan shares with its outside is bound by all of its solutions. -/
theorem binds_of_shared (h : WellDesigned outside plan) (hMem : m ∈ plan.meaning d)
    (hName : name ∈ plan.varNames) (hOutside : name ∈ outside) : m.binds name = true := by
  induction h generalizing m with
  | pattern hGraph =>
      obtain ⟨q, -, hMatch⟩ := List.mem_filterMap.mp (Multiset.mem_coe.mp hMem)
      rw [varNames] at hName
      exact (QuadPattern.binds_of_matching hGraph hMatch).mpr hName
  | join hLeft hRight ihLeft ihRight =>
      obtain ⟨a, hA, b, hB, hMerge⟩ := Bag.mem_join.mp hMem
      rw [Solution.binds_of_merge? hMerge, Bool.or_eq_true]
      rw [varNames, List.mem_append] at hName
      exact hName.imp (ihLeft hA · (List.mem_append_right _ hOutside))
        (ihRight hB · (List.mem_append_right _ hOutside))
  | leftJoin hShared hLeft hRight ihLeft ihRight =>
      rename_i outside left right
      -- A name of the right argument is one of the left argument too, whose rows are never lost.
      have hHere : name ∈ left.varNames := by
        rw [varNames, List.mem_append] at hName
        exact hName.elim id fun hRight => hShared name hRight hOutside
      have hBound : ∀ a ∈ left.meaning d, a.binds name = true := fun a hA =>
        ihLeft hA hHere (List.mem_append_right _ hOutside)
      rcases Bag.mem_leftJoin hMem with hJoin | hAlone
      · obtain ⟨a, hA, b, -, hMerge⟩ := Bag.mem_join.mp hJoin
        rw [Solution.binds_of_merge? hMerge, hBound a hA, Bool.true_or]
      · exact hBound m hAlone

end WellDesigned

namespace Conjunctive

variable {d : Dataset} {plan : Plan} {m : Solution}

theorem positive (h : plan.Conjunctive) : plan.Positive := by
  induction h with
  | pattern hGraph => exact .pattern (.inl hGraph)
  | join hLeft hRight ihLeft ihRight => exact .join ihLeft ihRight

/-- Joins of patterns are well designed, whatever is outside. -/
theorem wellDesigned (h : plan.Conjunctive) (outside : List String) : WellDesigned outside plan := by
  induction h generalizing outside with
  | pattern hGraph => exact .pattern hGraph
  | join hLeft hRight ihLeft ihRight => exact .join (ihLeft _) (ihRight _)

/-- All of their solutions bind all of their names, and no others. -/
theorem binds_iff (h : plan.Conjunctive) (hMem : m ∈ plan.meaning d) (name : String) :
    m.binds name = true ↔ name ∈ plan.bindingNames := by
  rw [(h.wellDesigned []).bindingNames_eq]
  exact ⟨(h.wellDesigned []).mem_varNames_of_binds hMem,
    fun hName => (h.wellDesigned plan.varNames).binds_of_shared hMem hName hName⟩

end Conjunctive

end Plan

end SolutionFlow
