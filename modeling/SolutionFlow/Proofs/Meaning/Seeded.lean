import SolutionFlow.Proofs.Meaning.Denotation
import SolutionFlow.Proofs.Meaning.FanOut

/-! Seeded evaluation is a join with the seed. The evaluation never joins two bags: it starts the right
argument of a join on each left row, and patterns and tables take care of the bindings that they find
in their seed. On joins and unions of patterns and tables this comes to the same rows. -/
namespace SolutionFlow.Plan

variable {d : Dataset} {plan : Plan}

/-- The rows of a table, seen from a seed, are the merges of the seed with the compatible ones. -/
theorem inline_rows (seed : Solution) {rows : List Solution}
    (hRows : ∀ row ∈ rows, row.isEmpty = false) :
    ((if seed.isEmpty then rows else rows.filterMap seed.assign? : List Solution) : Bag) =
      Bag.seeded seed rows := by
  split
  next hEmpty => rw [Solution.eq_empty_of_isEmpty hEmpty, Bag.seeded_empty]
  next =>
    rw [Bag.seeded, Multiset.filterMap_coe]
    refine congrArg _ (List.filterMap_congr fun row hMem => ?_)
    exact Solution.assign?_eq_merge? seed (hRows row hMem)

/-- A pattern yields what it finds from a seed. -/
theorem Yields.solutions (p : QuadPattern) (seed : Solution) :
    (Plan.pattern p).Yields d seed (p.solutions d seed : List Solution) := by
  refine .of_calling (fun _ _ => rfl) fun hStore clock => ?_
  rw [← hStore]
  rfl

/-- Where a plan means some rows, it yields these, merged with the seed, if the seed comes from outside. -/
theorem Means.yields {outside : String → Prop} {rows : Bag} (h : Means d outside plan rows)
    {seed : Solution} (hSeed : ∀ name, seed.binds name = true → outside name) :
    plan.Yields d seed (rows.seeded seed) := by
  induction h generalizing seed with
  | @pattern outside p hGraph =>
      have hRows : ((p.solutions d seed : List Solution) : Bag) =
          Bag.seeded seed (p.solutions d .empty : List Solution) := by
        rw [p.solutions_seeded d seed fun slot hPlace => (hGraph slot hPlace).imp_right
          (.imp_right fun hOwn => Bool.not_eq_true _ ▸ mt (hSeed slot.name) hOwn), Bag.seeded,
          Multiset.filterMap_coe]
      rw [← hRows]
      exact .solutions p seed
  | inline hRows =>
      rw [← inline_rows seed hRows]
      exact .of_calling (fun _ _ => rfl) fun _ _ => rfl
  | singleton =>
      have hOne : Bag.seeded seed {.empty} = {seed} := by
        rw [Bag.seeded]
        simp [Multiset.filterMap_eq_bind, Solution.merge?_empty]
      rw [hOne]
      exact .singleton
  | empty => exact .empty
  | join hLeft hRight ihLeft ihRight =>
      rw [Bag.seeded_join]
      refine (ihLeft hSeed).join fun row hRow => ihRight fun name hBinds => ?_
      exact (Bag.binds_of_mem_seeded _ _ hRow hBinds).imp_left (hSeed name)
  | union hLeft hRight ihLeft ihRight =>
      rw [Bag.seeded_add]
      exact (ihLeft hSeed).union (ihRight hSeed)

/-- What a positive plan yields from a seed, is what it means, merged with the seed. -/
theorem Positive.yields (h : plan.Positive) (seed : Solution) :
    plan.Yields d seed ((plan.meaning d).seeded seed) :=
  (h.means fun _ => True).yields fun _ _ => trivial

/-- The evaluation of a positive plan from a seed gives the merges of the seed with all compatible
rows that the plan means. As a consequence, joins of such plans may be turned around and regrouped. -/
theorem positive_gives_seeded (hPlan : plan.Positive) (seed : Solution) :
    plan.Gives d seed ((plan.meaning d).seeded seed) ∧
      (∀ {other : Plan} {rows : Bag}, other.Positive →
        ((join plan other).Gives d seed rows ↔ (join other plan).Gives d seed rows)) ∧
      ∀ {second third : Plan} {rows : Bag}, second.Positive → third.Positive →
        ((join (join plan second) third).Gives d seed rows ↔
          (join plan (join second third)).Gives d seed rows) := by
  have hSame : ∀ {first other : Plan} {rows : Bag}, first.Positive → other.Positive →
      first.meaning d = other.meaning d → (first.Gives d seed rows ↔ other.Gives d seed rows) := by
    intro first other rows hFirst hOther hMeaning
    have hGives := (hFirst.yields seed).gives (d := d)
    have hGives' := (hOther.yields seed).gives (d := d)
    rw [hMeaning] at hGives
    exact ⟨fun h => h.unique hGives ▸ hGives', fun h => h.unique hGives' ▸ hGives⟩
  refine ⟨(hPlan.yields seed).gives, fun hOther => ?_, fun hSecond hThird => ?_⟩
  · refine hSame (.join hPlan hOther) (.join hOther hPlan) ?_
    rw [meaning, meaning, Bag.join_comm]
  · refine hSame (.join (.join hPlan hSecond) hThird) (.join hPlan (.join hSecond hThird)) ?_
    rw [meaning, meaning, meaning, meaning, Bag.join_assoc]

/-- From a seed that binds the subject, a pattern next to two rows gives its only match twice, on
whatever side of the join it stands. -/
theorem positive_gives_seeded_pattern :
    let p : QuadPattern := ⟨.all, .ofVariable "x", .ofVariable "y", .ofVariable "z", none⟩
    let d : Dataset := ⟨[⟨.iri "a", .iri "p", .iri "b", none⟩, ⟨.iri "c", .iri "p", .iri "b", none⟩]⟩
    let seed : Solution := .ofList [("x", .iri "a")]
    let m : Solution := .ofList [("x", .iri "a"), ("y", .iri "p"), ("z", .iri "b")]
    (pattern p).Positive ∧ (union singleton singleton).Positive ∧
      (join (pattern p) (union singleton singleton)).Gives d seed {m, m} ∧
      (join (union singleton singleton) (pattern p)).Gives d seed {m, m} := by
  intro p d seed m
  have hPattern : (pattern p).Positive := .pattern (.inl rfl)
  have hUnion : (union singleton singleton).Positive := .union .singleton .singleton
  have hRows : ((join (pattern p) (union singleton singleton)).meaning d).seeded seed = {m, m} := by
    decide
  have hGives := (positive_gives_seeded (d := d) (.join hPattern hUnion) seed).1
  rw [hRows] at hGives
  exact ⟨hPattern, hUnion, hGives, ((positive_gives_seeded hPattern seed).2.1 hUnion).mp hGives⟩

end SolutionFlow.Plan
