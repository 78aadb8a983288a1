import SolutionFlow.Proofs.Meaning.Restoring
import SolutionFlow.Proofs.Meaning.Timely

/-! Conditions of filters and of left joins, from any seed. A condition sees of a row the names that the
arguments may bind. Where they bind all of them, it sees nothing of the seed that is not theirs; where they
leave one unbound, it sees what the seed binds. -/
namespace SolutionFlow

namespace Expr

/-- With a time put in for NOW, a condition admits the rows on which it holds at that time. -/
theorem run_admits_asOf {x : Expr} {around : Surroundings} {row : Solution} {now : Nat}
    (hFree : x.ExistsFree) (clock : Clock) :
    (((x.asOf now).admits around row).run clock).1 = .ok (x.holdsAt now row) := by
  have hNever : ¬Failed (((x.asOf now).holds around row).run clock).1 :=
    not_failed_holds (x.existsFree_asOf now hFree) clock
  rw [run_holds_asOf hFree] at hNever
  rw [run_admits, run_holds_asOf hFree, holdsAt]
  cases hOutcome : x.outcomeAt now row with
  | ok value => rfl
  | error error =>
      cases error with
      | type fault => rfl
      | query error => exact absurd ⟨error, hOutcome⟩ hNever

end Expr

namespace LeftJoining

/-- With a time put in for NOW, the condition of a left join is steady. -/
theorem steady_asOf {env : Environment} {now : Nat} {condition : Option Expr} {visible : List String}
    (hFree : ∀ x ∈ condition, x.ExistsFree) :
    Steady env (condition.map (Expr.asOf now)) visible
      fun row => condition.all (·.holdsAt now (row.restrict visible)) := by
  rintro s hCondition hVisible row outcome ⟨clock, rfl⟩
  rw [admits, hCondition, hVisible]
  cases condition with
  | none => rfl
  | some x => exact Expr.run_admits_asOf (hFree x rfl) clock

end LeftJoining

namespace Filtering

/-- The condition of a filter comes to a verdict on each row, which is the same at all times. -/
def Steady (env : Environment) (s : Filtering) (chosen : Solution → Bool) : Prop :=
  ∀ row clock, ((s.condition.admits env.surroundings (s.view row)).run clock).1 = .ok (chosen row)

/-- Under a steady condition a row is handed on if it is chosen, or dropped. -/
theorem says_onRow_of_steady {env : Environment} {s s' : Filtering} {chosen : Solution → Bool}
    {row : Solution} {t : Trace} {more : Bool} (hSteady : s.Steady env chosen)
    (h : ((pipe env).onRow s row).Says t (more, s')) :
    s' = s ∧ ((∃ made, Option.guard chosen row = some made ∧ t = [.row made more]) ∨
      (Option.guard chosen row = none ∧ more = true ∧ t = [])) := by
  simp only [pipe, Pipe.ofRow, Emission.says_bind, Emission.says_asking] at h
  obtain ⟨t₁, outcome, t₂, ⟨rfl, clock, hOutcome⟩, hRest, rfl⟩ := h
  obtain rfl : outcome = .ok (chosen row) := hOutcome.trans (hSteady row clock)
  cases hChosen : chosen row with
  | true =>
      simp only [hChosen, bind_pure_comp, Emission.says_map, Emission.says_push, Prod.mk.injEq] at hRest
      obtain ⟨_, rfl, rfl, rfl⟩ := hRest
      exact ⟨rfl, .inl ⟨row, by simp [hChosen], rfl⟩⟩
  | false =>
      simp only [hChosen, Emission.says_pure, Prod.mk.injEq] at hRest
      obtain ⟨rfl, rfl, rfl⟩ := hRest
      exact ⟨rfl, .inr ⟨by simp [hChosen], rfl, rfl⟩⟩

/-- With a time put in for NOW, the condition of a filter is steady. -/
theorem steady_asOf {env : Environment} {now : Nat} {condition : Expr} {names : List String}
    (hFree : condition.ExistsFree) :
    Steady env ⟨condition.asOf now, some names⟩ fun row => condition.holdsAt now (row.restrict names) :=
  fun _ clock => Expr.run_admits_asOf hFree clock

end Filtering

namespace Solution

variable {a b m : Solution} {names : List String}

/-- The part of a merge on some names looks like one of the two where this one has what the other one has of
these names, and nothing else. -/
theorem get?_restrict_of_merge? (h : a.merge? b = some m) {name : String}
    (hName : if name ∈ names then a.binds name = true → b.binds name = true
      else b.binds name = false) :
    (m.restrict names).get? name = b.get? name := by
  split at hName
  next hMem =>
    rw [agreeOn_restrict m names name hMem, get?_of_merge? h]
    cases hA : a.get? name with
    | none => rw [Option.none_or]
    | some x =>
        obtain ⟨y, hB⟩ := Option.isSome_iff_exists.mp (hName (by simp [binds, hA]))
        rw [← hA, ← get?_of_merge? h, hB]
        exact get?_of_merge?_right h hB
  next hOther =>
    rw [restrict, get?_filterNames, if_neg (mt List.contains_iff_mem.mp hOther), eq_comm]
    exact Option.isNone_iff_eq_none.mp (Option.isSome_eq_false_iff.mp hName)

/-- Of a merge, the part on the names of one of the two is that one. -/
theorem restrict_of_merge? (h : a.merge? b = some m)
    (hNames : ∀ name, b.binds name = true ↔ name ∈ names) : m.restrict names = b := by
  refine ext_get? fun name => get?_restrict_of_merge? h ?_
  split
  next hMem => exact fun _ => (hNames name).mpr hMem
  next hOther => rwa [← Bool.not_eq_true, hNames]

end Solution

namespace Plan

variable {d : Dataset} {arg left right : Plan} {condition : Option Expr} {seed : Solution}
  {scope : Scope} {a : Bag}

/-- Under a steady condition, a filter yields what is chosen of the rows of its argument. -/
theorem YieldsWithin.filter {x : Expr} {chosen : Solution → Bool} {bound : Nat}
    (hOutside : scope.nested = false)
    (hSteady : ∀ env, Filtering.Steady env ⟨x, some arg.bindingNames⟩ chosen)
    (hArg : arg.YieldsWithin d scope.descend bound seed a) :
    (Plan.filter arg x).YieldsWithin d scope bound seed (a.filter (chosen · = true)) := by
  intro env steps t p hStore run hRefused
  rw [start, hOutside] at run
  obtain ⟨heard, child, s, hRun, hPasses, -⟩ :=
    Process.passes_underOne (fun _ => rfl) (fun _ _ => rfl) run
  obtain ⟨-, hEnded, hRefuses, hFailed, hAccepted⟩ :=
    Pipe.passes_ofRow (fun hSays => Filtering.says_onRow_of_steady (hSteady env) hSays) hPasses
  have hRows : t.rows = heard.rows.filter (chosen · = true) := by
    rw [Trace.rows, hAccepted, List.filterMap_eq_filter]
    simp [Trace.rows]
  exact (hArg hStore hRun (hRefuses.symm.trans hRefused)).of_heard (Multiset.filter_le_filter _) hEnded
    hFailed hRows

/-- What the arguments of a left join see of its seed, and a right row binds, each row of a join of patterns on
the left binds too. -/
theorem Conjunctive.binds_of_inherited {row other : Solution} {name : String} (hLeft : left.Conjunctive)
    (hRight : right.Conjunctive) (hRow : row ∈ left.meaning d) (hOther : other ∈ right.meaning d)
    (hSeed : (inherited left right condition seed).binds name = true)
    (hBinds : other.binds name = true) : row.binds name = true := by
  rw [hLeft.binds_iff hRow]
  by_contra hLacks
  have hOccurs : name ∈ right.varNames := by
    rw [← (hRight.wellDesigned []).bindingNames_eq]
    exact (hRight.binds_iff hOther name).mp hBinds
  have hHeld : name ∈ heldBack left right condition seed :=
    mem_heldBack.mpr ⟨Solution.binds_of_without hSeed, hLacks, .inl hOccurs⟩
  simp [inherited, Solution.binds, Solution.without, hHeld] at hSeed

/-- A left join of joins of patterns merges its rows with the seed, if its condition is steady. -/
theorem Conjunctive.leftJoin_yieldsWithin {chosen : Solution → Bool} {bound : Nat}
    {bounds : Solution → Nat} (hLeft : left.Conjunctive) (hRight : right.Conjunctive)
    (hSteady : ∀ env, LeftJoining.Steady env condition (left.bindingNames ++ right.bindingNames)
      fun row => chosen (row.restrict (left.bindingNames ++ right.bindingNames)))
    (hLeftYields : left.YieldsWithin d scope.descend bound (inherited left right condition seed)
      (Bag.seeded (inherited left right condition seed) (left.meaning d)))
    (hRightYields : ∀ row,
      right.YieldsWithin d scope.descend (bounds row) row (Bag.seeded row (right.meaning d))) :
    (leftJoin left right condition).YieldsWithin d scope
      (bound + ((Bag.seeded (inherited left right condition seed) (left.meaning d)).map bounds).sum) seed
      (Bag.seeded seed (Bag.leftJoinIf chosen (left.meaning d) (right.meaning d))) := by
  have hNames : ∀ row ∈ left.meaning d, ∀ m ∈ Bag.seeded row (right.meaning d), ∀ name,
      m.binds name = true ↔ name ∈ left.bindingNames ++ right.bindingNames := by
    intro row hRow m hMem name
    obtain ⟨other, hOther, hMerge⟩ := (Bag.mem_seeded _ _).mp hMem
    rw [Solution.binds_of_merge? hMerge, Bool.or_eq_true, hLeft.binds_iff hRow, hRight.binds_iff hOther,
      List.mem_append]
  have hNone : Bag.seeded seed (Bag.bereft chosen (inherited left right condition seed)
      (left.meaning d) (right.meaning d)) = 0 :=
    Bag.seeded_bereft_without fun row hRow other hOther _ name =>
      hLeft.binds_of_inherited hRight hRow hOther
  rw [← add_zero (Bag.seeded seed (Bag.leftJoinIf chosen _ _)), ← hNone]
  refine YieldsWithin.leftJoin_seeded hLeftYields (fun row _ => hRightYields row) hSteady ?_
  intro row hRow m hMem m' hMerge
  exact congrArg chosen (Solution.restrict_of_merge? hMerge (hNames row hRow m hMem))

/-- From any seed, a left join of joins of patterns gives what it means, merged with the seed, whatever its
condition is, if it asks no nested query, and in whatever way its arguments share names with the seed. -/
theorem leftJoin_givesInTime_meaning (hLeft : left.Conjunctive) (hRight : right.Conjunctive)
    (hFree : ∀ x ∈ condition, x.ExistsFree) (seed : Solution) (scope : Scope) :
    (leftJoin left right condition).GivesInTime d seed scope fun now =>
      Bag.seeded seed (Bag.leftJoinIf (fun m => condition.all (·.holdsAt now m)) (left.meaning d)
        (right.meaning d)) := by
  let seen := inherited left right condition seed
  obtain ⟨bound, hBound⟩ := (hLeft.positive.yields (d := d) seen).within
  choose bounds hBounds using fun row => (hRight.positive.yields (d := d) row).within
  refine givesInTime (bound + ((Bag.seeded seen (left.meaning d)).map bounds).sum) fun now => ?_
  have hLeftDated : left.Dated now left := hLeft.positive.dated
  have hRightDated : right.Dated now right := hRight.positive.dated
  have hSeen : seen = inherited left right (condition.map (Expr.asOf now)) seed :=
    (congrArg seed.without (hLeftDated.heldBack_eq hRightDated condition seed)).symm
  refine ⟨_, .leftJoin hFree hLeftDated hRightDated, ?_⟩
  rw [hSeen] at hBound ⊢
  exact hLeft.leftJoin_yieldsWithin hRight (fun _ => LeftJoining.steady_asOf hFree) (hBound _)
    fun row => hBounds row _

/-- The right row of a left one is chosen if it is not in the future, which is told by the time of the query.
Seen from a seed that binds its name to something else, it is then in conflict with the seed; before, the
left row comes out by itself. -/
theorem leftJoin_givesInTime_meaning_clock :
    let left : Plan := .pattern ⟨.all, .ofVariable "x", .ofVariable "p", .ofVariable "y", none⟩
    let right : Plan := .pattern ⟨.all, .ofVariable "y", .ofVariable "p", .ofVariable "z", none⟩
    let condition : Option Expr := some (.compare .lt (.var "z") .now)
    let d : Dataset := ⟨[⟨.iri "a", .iri "n", .iri "b", none⟩,
      ⟨.iri "b", .iri "n", .ofTime 1000000000, none⟩]⟩
    let seed : Solution := .ofList [("x", .iri "a"), ("z", .ofTime 3000000000)]
    let rows (now : Nat) : Bag := Bag.seeded seed (Bag.leftJoinIf (fun m => condition.all (·.holdsAt now m))
      (left.meaning d) (right.meaning d))
    left.Conjunctive ∧ right.Conjunctive ∧ (∀ x ∈ condition, x.ExistsFree) ∧
      (leftJoin left right condition).GivesInTime d seed .root rows ∧ rows 2000000000 = 0 ∧
      rows 0 = {.ofList [("p", .iri "n"), ("x", .iri "a"), ("y", .iri "b"), ("z", .ofTime 3000000000)]} := by
  intro left right condition d seed rows
  have hLeft : left.Conjunctive := .pattern rfl
  have hRight : right.Conjunctive := .pattern rfl
  have hFree : ∀ x ∈ condition, x.ExistsFree := by simp [condition, Expr.ExistsFree]
  have hGives := leftJoin_givesInTime_meaning (d := d) hLeft hRight hFree seed .root
  exact ⟨hLeft, hRight, hFree, hGives, by decide +kernel, by decide +kernel⟩

/-- In a query of its own, a filter of a positive plan gives the rows of the argument, merged with the seed,
on whose part on the names of the argument its condition holds. -/
theorem Positive.filter_givesInTime {x : Expr} (hArg : arg.Positive) (hFree : x.ExistsFree)
    (seed : Solution) (hOutside : scope.nested = false) :
    (filter arg x).GivesInTime d seed scope fun now =>
      ((arg.meaning d).seeded seed).filter fun row =>
        x.holdsAt now (row.restrict arg.bindingNames) = true := by
  obtain ⟨bound, hBound⟩ := (hArg.yields (d := d) seed).within
  refine givesInTime bound fun now => ⟨_, .filter hFree hArg.dated, ?_⟩
  exact YieldsWithin.filter hOutside (fun _ => Filtering.steady_asOf hFree) (hBound _)

/-- In a query of its own, the condition of a filter sees of a row the names that the argument may bind, with
what the seed binds where the argument does not. So a filter of a positive plan gives the rows that satisfy
the condition by themselves, merged with the seed, exactly if on no merged row the verdict is another than
on the row by itself. It is so if each row binds those names of the argument in the condition that the seed
binds, and no names in the condition that are not of the argument: what only the seed binds is then hidden
from the condition. -/
theorem filter_givesInTime_visible {x : Expr} (hArg : arg.Positive) (hFree : x.ExistsFree)
    (seed : Solution) (hOutside : scope.nested = false) :
    let plan := filter arg x
    let own := arg.meaning d
    let holds := fun now row => x.holdsAt now (row.restrict arg.bindingNames)
    let means := fun now => Bag.seeded seed (own.filter (x.holdsAt now · = true))
    plan.GivesInTime d seed scope (fun now => (own.seeded seed).filter (holds now · = true)) ∧
      (plan.GivesInTime d seed scope means ↔
        ∀ now, ∀ row ∈ own, ∀ m, seed.merge? row = some m → holds now m = x.holdsAt now row) ∧
      ((∀ row ∈ own, ∀ name ∈ x.varNames,
          if name ∈ arg.bindingNames then seed.binds name = true → row.binds name = true
          else row.binds name = false) →
        plan.GivesInTime d seed scope means) := by
  intro plan own holds means
  have hGives := hArg.filter_givesInTime (d := d) hFree seed hOutside
  have hIff : plan.GivesInTime d seed scope means ↔
      ∀ now, ∀ row ∈ own, ∀ m, seed.merge? row = some m → holds now m = x.holdsAt now row := by
    have hRows : (fun now => (own.seeded seed).filter (holds now · = true)) = means ↔
        ∀ now, ∀ row ∈ own, ∀ m, seed.merge? row = some m → holds now m = x.holdsAt now row := by
      refine funext_iff.trans (forall_congr' fun now => Bag.filter_seeded_eq_iff.trans ?_)
      exact forall₂_congr fun row _ => forall₂_congr fun m _ => Bool.eq_iff_iff.symm
    rw [← hRows]
    exact ⟨hGives.unique, fun hSame => hSame ▸ hGives⟩
  refine ⟨hGives, hIff, fun hBinds => hIff.mpr fun now row hRow m hMerge => ?_⟩
  exact Expr.holdsAt_congr hFree fun name hName =>
    Solution.get?_restrict_of_merge? hMerge (hBinds row hRow name hName)

/-- Of a union, one argument leaves the name unbound that the condition asks for. The seed binds it, and so both
rows are given. -/
theorem filter_givesInTime_visible_union :
    let arg : Plan := .union (.inline ["x"] [.ofList [("x", .integer 1)]])
      (.inline ["y"] [.ofList [("y", .integer 2)]])
    let seed : Solution := .ofList [("y", .integer 2), ("z", .integer 3)]
    let rows (now : Nat) : Bag := ((arg.meaning .empty).seeded seed).filter fun row =>
      (Expr.bound "y").holdsAt now (row.restrict arg.bindingNames) = true
    arg.Positive ∧ (Expr.bound "y").ExistsFree ∧ Scope.root.nested = false ∧
      (filter arg (.bound "y")).GivesInTime .empty seed .root rows ∧
      rows 0 = {.ofList [("x", .integer 1), ("y", .integer 2), ("z", .integer 3)], seed} := by
  intro arg seed rows
  have hArg : arg.Positive := .union (.inline (by decide)) (.inline (by decide))
  have hFree : (Expr.bound "y").ExistsFree := trivial
  have hOutside : Scope.root.nested = false := rfl
  have hGives : (filter arg (.bound "y")).GivesInTime .empty seed .root rows :=
    (filter_givesInTime_visible hArg hFree seed hOutside).1
  exact ⟨hArg, hFree, hOutside, hGives, by decide⟩

/-- A row that does not satisfy the condition by itself may be given, where the argument may bind the name in
the condition and does not. -/
theorem filter_gives_other_rows :
    let arg : Plan := .inline ["x", "y"] [.ofList [("x", .integer 1)]]
    let seed : Solution := .ofList [("y", .integer 1)]
    arg.Positive ∧ (Expr.bound "y").ExistsFree ∧
      (∃ rows : Nat → Bag, (filter arg (.bound "y")).GivesInTime .empty seed .root rows ∧
        rows 0 = {.ofList [("x", .integer 1), ("y", .integer 1)]}) ∧
      ¬(filter arg (.bound "y")).GivesInTime .empty seed .root fun now =>
        Bag.seeded seed ((arg.meaning .empty).filter ((Expr.bound "y").holdsAt now · = true)) := by
  intro arg seed
  have hArg : arg.Positive := .inline (by decide)
  have hFree : (Expr.bound "y").ExistsFree := trivial
  have hOutside : Scope.root.nested = false := rfl
  have hGives := hArg.filter_givesInTime (d := .empty) hFree seed hOutside
  refine ⟨hArg, hFree, ⟨_, hGives, by decide⟩, fun hMeans => ?_⟩
  exact absurd (congrFun (hGives.unique hMeans) 0) (by decide)

end Plan

end SolutionFlow
