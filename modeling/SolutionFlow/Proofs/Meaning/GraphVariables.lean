import SolutionFlow.Proofs.Meaning.Seeded

/-! Joins of tables and patterns with a variable for the graph. A statement of the default graph leaves the
variable unbound, and so it can be joined to a row that names any graph. But a search from such a row looks for
its graph only. So it makes a difference which of the two comes first: behind the table, the pattern misses
the statements of the default graph for each row that names a graph. Nothing else is missed. -/
namespace SolutionFlow

namespace Bag

variable (a b c : Bag) (chosen : Solution → Bool)

theorem join_add : join a (b + c) = join a b + join a c := by
  rw [join, join, join, ← Multiset.bind_add]
  exact Multiset.bind_congr fun row _ => seeded_add b c row

/-- To leave left rows out of a join is to join nothing to them. -/
theorem join_filter :
    join (a.filter (chosen · = false)) b = a.bind fun row => if chosen row then 0 else seeded row b := by
  rw [join, Multiset.filter_eq_bind, Multiset.bind_assoc]
  refine Multiset.bind_congr fun row _ => ?_
  cases chosen row <;> simp

/-- All left rows are those that are left out and the others. -/
theorem join_filter_add :
    join (a.filter (chosen · = false)) b + join (a.filter (chosen · = true)) b = join a b := by
  have hOthers : a.filter (chosen · = true) = a.filter (¬chosen · = false) :=
    Multiset.filter_congr fun row _ => (Bool.not_eq_false (chosen row)).symm ▸ Iff.rfl
  rw [hOthers, join, join, ← Multiset.add_bind, Multiset.filter_add_not, join]

theorem join_eq_zero_iff :
    join a b = 0 ↔ ∀ row ∈ a, ∀ other ∈ b, row.compatible other = false := by
  constructor
  · intro hNone row hRow
    rw [← seeded_eq_zero_iff, Multiset.eq_zero_iff_forall_notMem]
    intro m hMem
    have hJoin : m ∈ join a b := Multiset.mem_bind.mpr ⟨row, hRow, hMem⟩
    simp [hNone] at hJoin
  · intro hApart
    rw [join, Multiset.bind_congr fun row hRow => (seeded_eq_zero_iff b row).mpr (hApart row hRow)]
    exact Multiset.bind_zero a

end Bag

namespace QuadPattern

variable {p : QuadPattern} {slot : Slot}

/-- What a pattern binds on the statements of the named graphs. -/
def namedMatches (p : QuadPattern) (d : Dataset) : Bag :=
  ((d.quads : Multiset Quad).filter (¬·.graph = none)).filterMap p.matching?

/-- What it binds on the statements of the default graph. -/
def defaultMatches (p : QuadPattern) (d : Dataset) : Bag :=
  ((d.quads : Multiset Quad).filter (·.graph = none)).filterMap p.matching?

theorem matches_eq_add (p : QuadPattern) (d : Dataset) :
    ((d.quads.filterMap p.matching? : List Solution) : Bag) = p.namedMatches d + p.defaultMatches d := by
  rw [namedMatches, defaultMatches, ← Multiset.filterMap_add, add_comm, Multiset.filter_add_not,
    Multiset.filterMap_coe]

/-- In the scope of the named graphs, all matches are in these. -/
theorem matches_of_named (p : QuadPattern) (d : Dataset) :
    ((d.quads.filterMap { p with scope := .named }.matching? : List Solution) : Bag) =
      p.namedMatches d := by
  rw [namedMatches, Multiset.filter_coe, Multiset.filterMap_coe, List.filterMap_filter]
  refine congrArg _ (List.filterMap_congr fun q _ => ?_)
  cases hGraph : q.graph <;> simp [matching?, graphMatching?, hGraph]

/-- A search finds what is compatible with its seed among the matches in the named graphs, and if the seed does
not name a graph, also among those in the default graph. -/
theorem solutions_of_graphVariable (d : Dataset) (seed : Solution) (hPlace : p.graph = some slot)
    (hVariable : slot.constant = none) :
    ((p.solutions d seed : List Solution) : Bag) = Bag.seeded seed (p.namedMatches d) +
      if seed.binds slot.name then 0 else Bag.seeded seed (p.defaultMatches d) := by
  have hResolve : slot.resolve seed = seed.get? slot.name := by
    rw [Slot.resolve, hVariable, Option.none_or]
  cases hBound : seed.get? slot.name with
  | none =>
      have hOpen : ∀ other ∈ p.graph, p.scope = .named ∨ other.resolve seed = none := by
        intro other hOther
        obtain rfl : slot = other := Option.some.inj (hPlace.symm.trans hOther)
        exact .inr (hResolve.trans hBound)
      have hBinds : seed.binds slot.name = false := by rw [Solution.binds, hBound, Option.isSome_none]
      rw [p.solutions_eq d seed hOpen, ← Multiset.filterMap_coe, matches_eq_add, hBinds,
        if_neg Bool.false_ne_true]
      exact Bag.seeded_add _ _ seed
  | some graph =>
      have hBinds : seed.binds slot.name = true := by rw [Solution.binds, hBound, Option.isSome_some]
      rw [solutions_named hPlace (hResolve.trans hBound), solutions_eq _ d seed fun _ _ => .inl rfl,
        ← Multiset.filterMap_coe, matches_of_named, hBinds, if_pos rfl, add_zero]
      rfl

end QuadPattern

namespace Plan

variable {d : Dataset} {p : QuadPattern} {slot : Slot} {names : List String} {rows : List Solution}

/-- From any seed a table gives the merges of its rows with the seed. -/
theorem yields_inline (seed : Solution) (hRows : ∀ row ∈ rows, row.isEmpty = false) :
    (inline names rows).Yields d seed (Bag.seeded seed rows) := by
  have hMeans : Means d (fun _ => True) (inline names rows) rows := .inline hRows
  apply hMeans.yields
  intro name hBinds
  trivial

/-- What a table and then a pattern give: a row that names a graph is not joined to the default graph. -/
theorem yields_table_pattern (hPlace : p.graph = some slot) (hVariable : slot.constant = none)
    (hRows : ∀ row ∈ rows, row.isEmpty = false) :
    (join (inline names rows) (pattern p)).Yields d .empty (Bag.join rows (p.namedMatches d) +
      Bag.join ((rows : Bag).filter (·.binds slot.name = false)) (p.defaultMatches d)) := by
  have hTable : (inline names rows).Yields d .empty rows := by
    rw [← Bag.seeded_empty rows]
    exact yields_inline .empty hRows
  have hAll : Bag.join rows (p.namedMatches d) +
      Bag.join ((rows : Bag).filter (·.binds slot.name = false)) (p.defaultMatches d) =
      (rows : Bag).bind fun row => (p.solutions d row : List Solution) := by
    rw [Bag.join_filter, Bag.join, ← Multiset.bind_add]
    exact Multiset.bind_congr fun row _ => (p.solutions_of_graphVariable d row hPlace hVariable).symm
  rw [hAll]
  exact hTable.join fun row _ => .solutions p row

/-- What a pattern and then a table give: all matches are joined to all rows. -/
theorem yields_pattern_table (hPlace : p.graph = some slot) (hVariable : slot.constant = none)
    (hRows : ∀ row ∈ rows, row.isEmpty = false) :
    (join (pattern p) (inline names rows)).Yields d .empty
      (Bag.join rows (p.namedMatches d) + Bag.join rows (p.defaultMatches d)) := by
  have hMatches : ((p.solutions d .empty : List Solution) : Bag) =
      p.namedMatches d + p.defaultMatches d := by
    rw [p.solutions_of_graphVariable d .empty hPlace hVariable, Bag.seeded_empty, Bag.seeded_empty]
    rfl
  rw [← Bag.join_add, ← hMatches, Bag.join_comm]
  apply Yields.join (.solutions p .empty)
  intro row hMatch
  exact yields_inline row hRows

/-- Whether a table or a pattern with a variable for the graph is evaluated first makes one difference: behind
the table, the pattern misses its matches in the default graph for the rows that name a graph. So the order
does not matter exactly if none of these rows is compatible with such a match. -/
theorem join_gives_missed (hPlace : p.graph = some slot) (hVariable : slot.constant = none)
    (hRows : ∀ row ∈ rows, row.isEmpty = false) :
    let behind := join (inline names rows) (pattern p)
    let ahead := join (pattern p) (inline names rows)
    let found := Bag.join rows (p.namedMatches d) +
      Bag.join ((rows : Bag).filter (·.binds slot.name = false)) (p.defaultMatches d)
    let missed := Bag.join ((rows : Bag).filter (·.binds slot.name = true)) (p.defaultMatches d)
    behind.Gives d .empty found ∧ ahead.Gives d .empty (found + missed) ∧
      ((∀ given, behind.Gives d .empty given ↔ ahead.Gives d .empty given) ↔
        ∀ row ∈ rows, row.binds slot.name = true →
          ∀ m ∈ p.defaultMatches d, row.compatible m = false) := by
  intro behind ahead found missed
  have hBehind : behind.Gives d .empty found := (yields_table_pattern hPlace hVariable hRows).gives
  have hAhead : ahead.Gives d .empty (found + missed) := by
    rw [add_assoc, Bag.join_filter_add]
    exact (yields_pattern_table hPlace hVariable hRows).gives
  have hNone : missed = 0 ↔ ∀ row ∈ rows, row.binds slot.name = true →
      ∀ m ∈ p.defaultMatches d, row.compatible m = false := by
    simp only [missed, Bag.join_eq_zero_iff, Multiset.mem_filter, Multiset.mem_coe, and_imp]
  refine ⟨hBehind, hAhead, ?_⟩
  rw [← hNone]
  constructor
  · intro hSame
    exact add_eq_left.mp (hAhead.unique ((hSame found).mp hBehind))
  · intro hZero given
    rw [hZero, add_zero] at hAhead
    exact ⟨fun hGiven => hGiven.unique hBehind ▸ hAhead, fun hGiven => hGiven.unique hAhead ▸ hBehind⟩

/-- The pattern for all statements, with a variable for each place. -/
def everyQuad : QuadPattern :=
  ⟨.all, .ofVariable "x", .ofVariable "y", .ofVariable "z", some (.ofVariable "g")⟩

/-- A store with a statement in the default graph and one in a named graph. -/
def twoGraphs : Dataset :=
  ⟨[⟨.iri "a", .iri "p", .iri "b", none⟩, ⟨.iri "c", .iri "p", .iri "b", some (.iri "k")⟩]⟩

/-- Of two rows, the one that names the graph is joined to the statement of the default graph only if the
pattern comes first. The other row is joined to both statements in either order. -/
theorem join_gives_missed_rows :
    let rows : List Solution := [.ofList [("g", .iri "k")], .ofList [("w", .integer 1)]]
    let found : Bag :=
      {.ofList [("g", .iri "k"), ("x", .iri "c"), ("y", .iri "p"), ("z", .iri "b")],
        .ofList [("g", .iri "k"), ("w", .integer 1), ("x", .iri "c"), ("y", .iri "p"), ("z", .iri "b")],
        .ofList [("w", .integer 1), ("x", .iri "a"), ("y", .iri "p"), ("z", .iri "b")]}
    everyQuad.graph = some (.ofVariable "g") ∧ (∀ row ∈ rows, row.isEmpty = false) ∧
      (join (inline ["g", "w"] rows) (pattern everyQuad)).Gives twoGraphs .empty found ∧
      (join (pattern everyQuad) (inline ["g", "w"] rows)).Gives twoGraphs .empty
        (found + {.ofList [("g", .iri "k"), ("x", .iri "a"), ("y", .iri "p"), ("z", .iri "b")]}) := by
  intro rows found
  have hRows : ∀ row ∈ rows, row.isEmpty = false := by decide
  have hGives := @join_gives_missed twoGraphs everyQuad (.ofVariable "g") ["g", "w"] rows rfl rfl hRows
  have hFound : Bag.join rows (everyQuad.namedMatches twoGraphs) +
      Bag.join ((rows : Bag).filter (·.binds (Slot.ofVariable "g").name = false))
        (everyQuad.defaultMatches twoGraphs) = found := by decide
  have hMissed : Bag.join ((rows : Bag).filter (·.binds (Slot.ofVariable "g").name = true))
      (everyQuad.defaultMatches twoGraphs) =
      {.ofList [("g", .iri "k"), ("x", .iri "a"), ("y", .iri "p"), ("z", .iri "b")]} := by decide
  rw [hFound, hMissed] at hGives
  exact ⟨rfl, hRows, hGives.1, hGives.2.1⟩

/-- A row that names a graph is joined to a statement of the default graph in one order and not in the
other. -/
theorem join_order_matters :
    ¬∀ (d : Dataset) (p : QuadPattern) (slot : Slot) (names : List String) (rows : List Solution)
        (given : Bag), p.scope = .all → p.graph = some slot → slot.constant = none →
          (∀ row ∈ rows, row.isEmpty = false) →
          ((join (inline names rows) (pattern p)).Gives d .empty given ↔
            (join (pattern p) (inline names rows)).Gives d .empty given) := by
  intro hSame
  let rows : List Solution := [.ofList [("g", .iri "k")]]
  have hRows : ∀ row ∈ rows, row.isEmpty = false := by decide
  have hBehind := (@yields_table_pattern twoGraphs everyQuad (.ofVariable "g") ["g"] rows rfl rfl hRows).gives
  have hAhead := (@yields_pattern_table twoGraphs everyQuad (.ofVariable "g") ["g"] rows rfl rfl hRows).gives
  have hGiven := (hSame twoGraphs everyQuad (.ofVariable "g") ["g"] rows _ rfl rfl rfl hRows).mp hBehind
  have hCount := congrArg Multiset.card (hGiven.unique hAhead)
  revert hCount
  decide

end Plan

end SolutionFlow
