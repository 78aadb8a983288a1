import SolutionFlow.Proofs.Expression.Names
import SolutionFlow.Proofs.Meaning.HeldBack
import SolutionFlow.Proofs.Meaning.Totality

/-! Left joins from any seed. The names that are held back are the part of the seed that the arguments do not
see; they are joined to the rows in the end. Of the rest of the seed, a left row may leave unbound what its
right rows bind. If all of them are in conflict there with the seed, the left row is taken for one without
right rows, and comes out by itself. -/
namespace SolutionFlow

namespace Solution

/-- A row is compatible with a seed if it is so with both parts. -/
theorem compatible_eq_and (seed row : Solution) (names : List String) :
    seed.compatible row =
      ((seed.restrict names).compatible row && (seed.without names).compatible row) := by
  obtain ⟨hParts, hSeed⟩ := merge?_eq_some_iff.mp (seed.restrict_merge?_without names)
  rw [← compatible_union hParts, ← hSeed]

end Solution

namespace Bag

variable {seed : Solution} {names : List String} {a b : Bag}

/-- To merge rows with both parts of a seed is to merge them with the seed. -/
theorem seeded_restrict_without (seed : Solution) (names : List String) (rows : Bag) :
    seeded (seed.restrict names) (seeded (seed.without names) rows) = seeded seed rows := by
  rw [seeded_seeded, Solution.restrict_merge?_without]
  rfl

/-- Nothing comes of the left rows that are bereft, if no left row leaves a name unbound that a part of the
seed has in common with one of its right rows. -/
theorem seeded_bereft_without {chosen : Solution → Bool}
    (hShared : ∀ row ∈ a, ∀ other ∈ b, row.compatible other = true → ∀ name,
      (seed.without names).binds name = true → other.binds name = true → row.binds name = true) :
    seeded seed (bereft chosen (seed.without names) a b) = 0 := by
  have hNone : seeded (seed.without names) (bereft chosen (seed.without names) a b) = 0 := by
    refine seeded_bereft _ fun row hRow hSeen other hOther hBoth => ?_
    exact Solution.compatible_trans hSeen hBoth (hShared row hRow other hOther hBoth)
  rw [← seeded_restrict_without seed names, hNone]
  rfl

end Bag

namespace Plan

variable {d : Dataset} {left right : Plan} {condition : Option Expr} {seed : Solution} {scope : Scope}
  {names : List String} {a b rows more : Bag}

theorem restored_mono (h : rows ≤ more) : restored names seed rows ≤ restored names seed more := by
  rw [restored, restored]
  split
  · exact h
  · exact Multiset.filterMap_le_filterMap _ h

/-- To put names back into rows that agree with the rest of the seed is to join these to the rows. -/
theorem restored_eq_seeded (h : ∀ row ∈ rows, (seed.without names).compatible row = true) :
    restored names seed rows = Bag.seeded (seed.restrict names) rows := by
  rw [restored]
  split
  next hNone =>
    have hEmpty : seed.restrict [] = .empty :=
      Solution.ext_get? fun name => by simp [Solution.restrict]
    rw [hNone, hEmpty, Bag.seeded_empty]
  next =>
    rw [Bag.seeded, Multiset.filterMap_eq_bind, Multiset.filterMap_eq_bind]
    refine Multiset.bind_congr fun row hMem => ?_
    rw [Solution.compatible_eq_and seed row names, h row hMem, Bool.and_true, Solution.merge?_eq_union]
    split
    next hPart => rw [Solution.union_comm hPart]
    next => rfl

/-- What is made of the rest of the seed becomes what would be made of all of it. -/
theorem restored_seeded :
    restored names seed (Bag.seeded (seed.without names) rows) = Bag.seeded seed rows := by
  rw [restored_eq_seeded, Bag.seeded_restrict_without]
  intro m hMem
  obtain ⟨row, -, hMerge⟩ := (Bag.mem_seeded _ _).mp hMem
  rw [Solution.compatible_iff]
  intro name x y hSeed hRow
  exact Option.some.inj ((Solution.get?_of_merge?_left hMerge hSeed).symm.trans hRow)

/-- What the arguments of a left join see of its seed. -/
def inherited (left right : Plan) (condition : Option Expr) (seed : Solution) : Solution :=
  seed.without (heldBack left right condition seed)

/-- Under a steady condition, a left join yields what its inner part does, with the names put back. -/
theorem YieldsWithin.leftJoin {chosen : Solution → Bool} {f : Solution → Bag} {bound : Nat}
    {bounds : Solution → Nat}
    (hSteady : ∀ env,
      LeftJoining.Steady env condition (left.bindingNames ++ right.bindingNames) chosen)
    (hLeft : left.YieldsWithin d scope.descend bound (inherited left right condition seed) a)
    (hRight : ∀ row ∈ a, right.YieldsWithin d scope.descend (bounds row) row (f row)) :
    (Plan.leftJoin left right condition).YieldsWithin d scope (bound + (a.map bounds).sum) seed
      (restored (heldBack left right condition seed) seed
        (a.bind fun row => Bag.orElse ((f row).filter (chosen · = true)) row)) := by
  intro env steps t p hStore run hRefused
  obtain ⟨inner, q, hInner, -, hEnded, hRefuses, hFailed, hRows⟩ := inner_of_leftJoin run
  have hToward := toward_startLeftJoin hInner hStore (hRefuses.symm.trans hRefused) (hSteady env)
    hLeft hRight
  exact hToward.of_heard restored_mono hEnded hFailed hRows

/-- If what is chosen does not depend on what the arguments see of the seed, a left join of arguments that
merge their rows with the seed does so too, but for the left rows that are bereft. -/
theorem YieldsWithin.leftJoin_seeded {chosen chosen' : Solution → Bool} {bound : Nat}
    {bounds : Solution → Nat}
    (hLeft : left.YieldsWithin d scope.descend bound (inherited left right condition seed)
      (Bag.seeded (inherited left right condition seed) a))
    (hRight : ∀ row ∈ Bag.seeded (inherited left right condition seed) a,
      right.YieldsWithin d scope.descend (bounds row) row (Bag.seeded row b))
    (hSteady : ∀ env,
      LeftJoining.Steady env condition (left.bindingNames ++ right.bindingNames) chosen')
    (hSame : ∀ row ∈ a, ∀ m ∈ Bag.seeded row b, ∀ m',
      (inherited left right condition seed).merge? m = some m' → chosen' m' = chosen m) :
    (Plan.leftJoin left right condition).YieldsWithin d scope
      (bound + ((Bag.seeded (inherited left right condition seed) a).map bounds).sum) seed
      (Bag.seeded seed (Bag.leftJoinIf chosen a b) +
        Bag.seeded seed (Bag.bereft chosen (inherited left right condition seed) a b)) := by
  rw [← Bag.seeded_add, ← @restored_seeded seed (heldBack left right condition seed), ← inherited,
    Bag.seeded_add, ← Bag.bind_seeded_orElse _ _ _ hSame]
  exact YieldsWithin.leftJoin hSteady hLeft hRight

/-- Nothing is held back if the left argument may bind what the right argument mentions of the seed. -/
theorem heldBack_eq_nil
    (h : ∀ name ∈ right.varNames, seed.binds name = true → name ∈ left.bindingNames) :
    heldBack left right none seed = [] := by
  rw [List.eq_nil_iff_forall_not_mem]
  intro name hMem
  obtain ⟨hSeed, hLeft, hRight | ⟨x, hNone, -⟩⟩ := mem_heldBack.mp hMem
  · exact hLeft (h name hRight hSeed)
  · cases hNone

/-- A left join merges the rows that it means with the seed, and besides yields the left rows that are bereft by
what the arguments see of it. -/
theorem Means.leftJoin_yields (hLeft : Means d (seed.binds · = true) left a)
    (hRight : Means d (fun name => seed.binds name = true ∨ ∃ row ∈ a, row.binds name = true) right b) :
    (leftJoin left right none).Yields d seed (Bag.seeded seed (Bag.leftJoin a b) +
      Bag.seeded seed (Bag.bereft (fun _ => true) (inherited left right none seed) a b)) := by
  have hSeen : ∀ name, (inherited left right none seed).binds name = true → seed.binds name = true :=
    fun _ => Solution.binds_of_without
  obtain ⟨bound, hBound⟩ := (hLeft.yields hSeen).within
  have hBoth : ∀ row ∈ Bag.seeded (inherited left right none seed) a,
      right.Yields d row (Bag.seeded row b) := fun row hRow =>
    hRight.yields fun name hBinds => (Bag.binds_of_mem_seeded _ _ hRow hBinds).imp_left (hSeen name)
  choose! bounds hBounds using fun row hRow => (hBoth row hRow).within
  rw [← Bag.leftJoinIf_true]
  exact .of_within _ fun scope =>
    YieldsWithin.leftJoin_seeded (hBound scope.descend) (fun row hRow => hBounds row hRow scope.descend)
      (fun _ => LeftJoining.steady_none) fun _ _ _ _ _ _ => rfl

/-- From any seed, a left join gives what it means from the bottom up, merged with the seed, and besides each
left row that is bereft by what the arguments see of the seed: it has right rows, but merged with any of
them it is in conflict with the seed. So it gives what it means exactly if these left rows are in conflict
with the seed themselves, and this is so if no left row leaves a name unbound that the seed has in common
with one of its right rows. -/
theorem leftJoin_gives_bereft (hLeft : Means d (seed.binds · = true) left a)
    (hRight : Means d (fun name => seed.binds name = true ∨ ∃ row ∈ a, row.binds name = true) right b) :
    let plan := leftJoin left right none
    let seen := inherited left right none seed
    let lost := Bag.bereft (fun _ => true) seen a b
    plan.Gives d seed (Bag.seeded seed (Bag.leftJoin a b) + Bag.seeded seed lost) ∧
      (plan.Gives d seed (Bag.seeded seed (Bag.leftJoin a b)) ↔
        ∀ row ∈ lost, seed.compatible row = false) ∧
      ((∀ row ∈ a, ∀ other ∈ b, row.compatible other = true →
          ∀ name, seen.binds name = true → other.binds name = true → row.binds name = true) →
        plan.Gives d seed (Bag.seeded seed (Bag.leftJoin a b))) := by
  intro plan seen lost
  have hGives : plan.Gives d seed (Bag.seeded seed (Bag.leftJoin a b) + Bag.seeded seed lost) :=
    (hLeft.leftJoin_yields hRight).gives
  have hIff : plan.Gives d seed (Bag.seeded seed (Bag.leftJoin a b)) ↔
      ∀ row ∈ lost, seed.compatible row = false := by
    rw [← Bag.seeded_eq_zero_iff]
    constructor
    · exact fun h => add_eq_left.mp (hGives.unique h)
    · intro hNone
      rwa [hNone, add_zero] at hGives
  refine ⟨hGives, hIff, fun hShared => hIff.mpr ?_⟩
  exact (Bag.seeded_eq_zero_iff _ _).mp (Bag.seeded_bereft_without hShared)

/-- Of two left rows, one leaves the name unbound that the seed shares with the right row, and has lost this row
to the seed. The other one binds it, and has no right row by itself. -/
theorem leftJoin_gives_bereft_table :
    let rows : List Solution := [.ofList [("x", .integer 1)],
      .ofList [("x", .integer 2), ("z", .integer 1)]]
    let others : List Solution := [.ofList [("z", .integer 2)]]
    let left : Plan := .inline ["x", "z"] rows
    let right : Plan := .inline ["z"] others
    let seed : Solution := .ofList [("z", .integer 1)]
    Means .empty (seed.binds · = true) left rows ∧
      Means .empty (fun name => seed.binds name = true ∨ ∃ row ∈ (rows : Bag), row.binds name = true)
        right others ∧
      (leftJoin left right none).Gives .empty seed
        {.ofList [("x", .integer 1), ("z", .integer 1)], .ofList [("x", .integer 2), ("z", .integer 1)]} := by
  intro rows others left right seed
  have hLeft : Means .empty (seed.binds · = true) left rows := .inline (by decide)
  have hRight : Means .empty
      (fun name => seed.binds name = true ∨ ∃ row ∈ (rows : Bag), row.binds name = true) right others :=
    .inline (by decide)
  have hSeen : inherited left right none seed = seed := by
    rw [inherited, heldBack_eq_nil (by decide), Solution.without_nil]
  have hRows : Bag.seeded seed (Bag.leftJoin rows others) +
      Bag.seeded seed (Bag.bereft (fun _ => true) (inherited left right none seed) rows others) =
      {.ofList [("x", .integer 1), ("z", .integer 1)],
        .ofList [("x", .integer 2), ("z", .integer 1)]} := by
    rw [hSeen]
    decide
  exact ⟨hLeft, hRight, hRows ▸ (leftJoin_gives_bereft hLeft hRight).1⟩

/-- A left row may be given although its only right row is in conflict with the seed, where the left argument
may bind a name and does not. And a pattern with a variable for the graph may miss the statements outside
of all graphs when the seed names a graph. -/
theorem leftJoin_gives_other_rows :
    (let rows : List Solution := [.ofList [("x", .integer 1)]]
      let others : List Solution := [.ofList [("z", .integer 2)]]
      let left : Plan := .inline ["x", "z"] rows
      let right : Plan := .inline ["z"] others
      let seed : Solution := .ofList [("z", .integer 1)]
      left.Positive ∧ right.Positive ∧ Bag.seeded seed (Bag.leftJoin rows others) = 0 ∧
        (leftJoin left right none).Gives .empty seed
          {.ofList [("x", .integer 1), ("z", .integer 1)]}) ∧
    (let p : QuadPattern :=
        ⟨.all, .ofVariable "x", .ofVariable "y", .ofVariable "z", some (.ofVariable "g")⟩
      let others : List Solution := [.ofList [("w", .integer 1)]]
      let right : Plan := .inline ["w"] others
      let d : Dataset := ⟨[⟨.iri "a", .iri "p", .iri "b", none⟩]⟩
      let seed : Solution := .ofList [("g", .iri "k")]
      right.Positive ∧ Bag.seeded seed (Bag.leftJoin (p.solutions d .empty : List Solution) others) =
          {.ofList [("g", .iri "k"), ("w", .integer 1), ("x", .iri "a"), ("y", .iri "p"),
            ("z", .iri "b")]} ∧
        (leftJoin (pattern p) right none).Gives d seed 0) := by
  constructor
  · intro rows others left right seed
    have hLeft : left.Positive := .inline (by decide)
    have hRight : right.Positive := .inline (by decide)
    have hSeen : inherited left right none seed = seed := by
      rw [inherited, heldBack_eq_nil (by decide), Solution.without_nil]
    have hNone : Bag.seeded seed (Bag.leftJoin rows others) = 0 := by decide
    have hYields := Means.leftJoin_yields (d := .empty) (hLeft.means (seed.binds · = true)) (hRight.means _)
    have hLost : Bag.seeded seed (Bag.bereft (fun _ => true) seed rows others) =
        {.ofList [("x", .integer 1), ("z", .integer 1)]} := by decide
    rw [hSeen] at hYields
    refine ⟨hLeft, hRight, hNone, ?_⟩
    rw [← hLost, ← zero_add (Bag.seeded seed _), ← hNone]
    exact hYields.gives
  · intro p others right d seed
    have hRight : right.Positive := .inline (by decide)
    have hNothing : (pattern p).Yields d seed 0 := .solutions _ seed
    have hHeld : heldBack (pattern p) right none seed = [] := heldBack_eq_nil (by decide)
    have hYields := @Yields.leftJoin d (pattern p) right seed 0 (fun _ => 0) hNothing (by simp) hHeld
    exact ⟨hRight, by decide, hYields.gives⟩

end Plan

end SolutionFlow
