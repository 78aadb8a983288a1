import Mathlib.Algebra.Order.Group.Multiset
import Mathlib.Data.Multiset.Bind
import SolutionFlow.Proofs.Meaning.Compatibility

/-! Bags of solutions, with the operations by which the meaning of a query is given from the bottom up.
`seeded` is what an evaluation that is started from a seed makes of a bag: each row that is compatible
with the seed, merged with it. -/
namespace SolutionFlow

/-- Solutions with their multiplicities. -/
abbrev Bag := Multiset Solution

namespace Bag

/-- The rows that are compatible with a seed, merged with it. -/
def seeded (seed : Solution) (rows : Bag) : Bag := rows.filterMap seed.merge?

/-- The merges of all compatible pairs. -/
def join (left right : Bag) : Bag := left.bind fun row => seeded row right

/-- The merges of all compatible pairs, and each left row that is compatible with no right row. -/
def leftJoin (left right : Bag) : Bag :=
  join left right + left.filter fun row => ∀ other ∈ right, row.compatible other = false

/-- The merges of a row with the compatible rows of a bag, as far as they are chosen. -/
def matched (chosen : Solution → Bool) (row : Solution) (right : Bag) : Bag :=
  (seeded row right).filter (chosen · = true)

/-- Some rows, or another one if there are none. -/
def orElse (rows : Bag) (row : Solution) : Bag := if rows = 0 then {row} else rows

/-- The chosen merges of all compatible pairs, and each left row of which no merge is chosen. -/
def leftJoinIf (chosen : Solution → Bool) (left right : Bag) : Bag :=
  (join left right).filter (chosen · = true) + left.filter (matched chosen · right = 0)

/-- The left rows that have chosen merges, none of which is compatible with a seed. -/
def bereft (chosen : Solution → Bool) (seed : Solution) (left right : Bag) : Bag :=
  left.filter fun row => matched chosen row right ≠ 0 ∧ seeded seed (matched chosen row right) = 0

variable (a b c : Bag) (seed : Solution)

theorem seeded_empty : seeded .empty a = a := by
  have hId : Solution.empty.merge? = some := funext Solution.empty_merge?
  rw [seeded, hId, Multiset.filterMap_some]

theorem seeded_add : seeded seed (a + b) = seeded seed a + seeded seed b :=
  Multiset.filterMap_add ..

/-- A seed on top of another one is their merge. -/
theorem seeded_seeded (row : Solution) :
    seeded seed (seeded row b) = ((seed.merge? row).map fun m => seeded m b).getD 0 := by
  rw [seeded, seeded, Multiset.filterMap_filterMap]
  have hAssoc : (fun other => (row.merge? other).bind seed.merge?) =
      fun other => (seed.merge? row).bind fun m => m.merge? other :=
    funext fun other => (Solution.merge?_assoc seed row other).symm
  rw [hAssoc]
  cases hMerge : seed.merge? row with
  | none =>
      refine Multiset.eq_zero_of_forall_notMem fun m hMem => ?_
      simp [Multiset.mem_filterMap] at hMem
  | some m => rfl

/-- A seed may be put into the left argument of a join only. -/
theorem seeded_join : seeded seed (join a b) = (seeded seed a).bind fun row => seeded row b := by
  rw [seeded, join, Multiset.filterMap_bind, seeded, Multiset.bind_filterMap]
  exact Multiset.bind_congr fun row _ => seeded_seeded b seed row

theorem join_comm : join a b = join b a := by
  simp only [join, seeded, Multiset.filterMap_eq_bind]
  rw [Multiset.bind_bind]
  simp only [Solution.merge?_comm]

theorem join_assoc : join (join a b) c = join a (join b c) := by
  rw [join, join, Multiset.bind_assoc, join]
  refine Multiset.bind_congr fun row _ => ?_
  rw [seeded_join]

theorem mem_seeded {m : Solution} : m ∈ seeded seed a ↔ ∃ row ∈ a, seed.merge? row = some m :=
  Multiset.mem_filterMap ..

/-- What a merged row binds, the seed or the row binds. -/
theorem binds_of_mem_seeded {m : Solution} (h : m ∈ seeded seed a) {name : String}
    (hBinds : m.binds name = true) : seed.binds name = true ∨ ∃ row ∈ a, row.binds name = true := by
  obtain ⟨row, hRow, hMerge⟩ := (mem_seeded a seed).mp h
  rw [Solution.binds_of_merge? hMerge, Bool.or_eq_true] at hBinds
  exact hBinds.imp_right fun hOwn => ⟨row, hRow, hOwn⟩

/-- Nothing is left for a seed that is compatible with no row. -/
theorem seeded_eq_zero_iff : seeded seed a = 0 ↔ ∀ row ∈ a, seed.compatible row = false := by
  simp only [Multiset.eq_zero_iff_forall_notMem, mem_seeded, not_exists, not_and]
  constructor
  · intro h row hMem
    rw [← Solution.merge?_eq_none_iff, Option.eq_none_iff_forall_ne_some]
    exact fun m hMerge => h m row hMem hMerge
  · intro h m row hMem hMerge
    rw [Solution.merge?_eq_none_iff.mpr (h row hMem)] at hMerge
    simp at hMerge

section

variable {a seed}

/-- Whether rows are chosen before or after they are merged with the seed is the same exactly if both
choices agree on all rows that can be merged. -/
theorem filter_seeded_eq_iff {chosen chosen' : Solution → Prop} [DecidablePred chosen]
    [DecidablePred chosen'] :
    (seeded seed a).filter chosen' = seeded seed (a.filter chosen) ↔
      ∀ row ∈ a, ∀ m, seed.merge? row = some m → (chosen' m ↔ chosen row) := by
  constructor
  · intro hEq row hRow m hMerge
    constructor
    · intro hLate
      by_contra hEarly
      obtain ⟨rest, rfl⟩ := Multiset.exists_cons_of_mem hRow
      have hCount := congrArg (Multiset.count m) hEq
      rw [Multiset.count_filter_of_pos hLate, Multiset.filter_cons_of_neg _ hEarly, seeded,
        Multiset.filterMap_cons_some _ _ _ hMerge, Multiset.count_cons_self] at hCount
      have hLess : Multiset.count m (seeded seed (rest.filter chosen)) ≤
          Multiset.count m (seeded seed rest) :=
        Multiset.count_le_of_le m (Multiset.filterMap_le_filterMap _ (Multiset.filter_le _ _))
      rw [← hCount, seeded] at hLess
      omega
    · intro hEarly
      have hMem : m ∈ seeded seed (a.filter chosen) :=
        (mem_seeded _ _).mpr ⟨row, Multiset.mem_filter.mpr ⟨hRow, hEarly⟩, hMerge⟩
      rw [← hEq] at hMem
      exact (Multiset.mem_filter.mp hMem).2
  · intro hSame
    induction a using Multiset.induction_on with
    | empty => rfl
    | cons row rest ih =>
        have hRest := ih fun other hMem => hSame other (Multiset.mem_cons_of_mem hMem)
        have hRow := hSame row (Multiset.mem_cons_self row rest)
        rw [seeded] at hRest ⊢
        cases hMerge : seed.merge? row with
        | none =>
            rw [Multiset.filterMap_cons_none _ _ hMerge, hRest]
            by_cases hEarly : chosen row
            · rw [Multiset.filter_cons_of_pos _ hEarly, seeded, seeded,
                Multiset.filterMap_cons_none _ _ hMerge]
            · rw [Multiset.filter_cons_of_neg _ hEarly]
        | some m =>
            rw [Multiset.filterMap_cons_some _ _ _ hMerge]
            by_cases hEarly : chosen row
            · rw [Multiset.filter_cons_of_pos _ ((hRow m hMerge).mpr hEarly),
                Multiset.filter_cons_of_pos _ hEarly, seeded,
                Multiset.filterMap_cons_some _ _ _ hMerge, hRest, seeded]
            · rw [Multiset.filter_cons_of_neg _ (mt (hRow m hMerge).mp hEarly),
                Multiset.filter_cons_of_neg _ hEarly, hRest]

end

theorem matched_true (row : Solution) : matched (fun _ => true) row b = seeded row b :=
  Multiset.filter_eq_self.mpr fun _ _ => rfl

/-- A left join row by row: what is chosen for each left row, or the row itself if nothing is. -/
theorem leftJoinIf_eq_bind (chosen : Solution → Bool) :
    leftJoinIf chosen a b = a.bind fun row => (matched chosen row b).orElse row := by
  rw [leftJoinIf, join, Multiset.filter_bind, Multiset.filter_eq_bind, ← Multiset.bind_add]
  refine Multiset.bind_congr fun row _ => ?_
  rw [← matched, orElse]
  split
  next hNone => rw [hNone, zero_add]
  next => rw [add_zero]

/-- In a plain left join everything is chosen. -/
theorem leftJoinIf_true : leftJoinIf (fun _ => true) a b = leftJoin a b := by
  rw [leftJoinIf, leftJoin, Multiset.filter_eq_self.mpr fun _ _ => rfl]
  refine congrArg _ (Multiset.filter_congr fun row _ => ?_)
  rw [matched_true, seeded_eq_zero_iff]

/-- A seed may be put into the left argument of a left join, if what is chosen does not depend on it. But then
each left row that has lost all that is chosen for it to the seed comes out by itself. -/
theorem bind_seeded_orElse {chosen chosen' : Solution → Bool}
    (hSame : ∀ row ∈ a, ∀ m ∈ seeded row b, ∀ m', seed.merge? m = some m' → chosen' m' = chosen m) :
    ((seeded seed a).bind fun row => (matched chosen' row b).orElse row) =
      seeded seed (leftJoinIf chosen a b) + seeded seed (bereft chosen seed a b) := by
  rw [leftJoinIf_eq_bind, bereft, Multiset.filter_eq_bind, ← seeded_add, ← Multiset.bind_add, seeded,
    Multiset.bind_filterMap, seeded, Multiset.filterMap_bind]
  refine Multiset.bind_congr fun row hRow => ?_
  rw [← seeded, seeded_add]
  have hChosen : seeded seed (matched chosen row b) =
      ((seed.merge? row).map fun m => matched chosen' m b).getD 0 := by
    have hFilter : (seeded seed (seeded row b)).filter (chosen' · = true) =
        seeded seed ((seeded row b).filter (chosen · = true)) :=
      filter_seeded_eq_iff.mpr fun m hMem m' hMerge => by rw [hSame row hRow m hMem m' hMerge]
    rw [matched, ← hFilter, seeded_seeded]
    cases seed.merge? row <;> rfl
  have hAlone : seeded seed {row} = ((seed.merge? row).map fun m => ({m} : Bag)).getD 0 := by
    cases hMerge : seed.merge? row <;> simp [seeded, Multiset.filterMap_eq_bind, hMerge]
  have hNothing : seeded seed 0 = 0 := rfl
  cases hMerge : seed.merge? row with
  | none =>
      simp only [hMerge, Option.map_none, Option.getD_none] at hChosen hAlone ⊢
      rw [orElse]
      split_ifs <;> simp only [hChosen, hAlone, hNothing, add_zero]
  | some m =>
      simp only [hMerge, Option.map_some, Option.getD_some] at hChosen hAlone ⊢
      rw [orElse, orElse, ← hChosen]
      by_cases hNone : matched chosen row b = 0
      · simp [hNone, hNothing, hAlone]
      · by_cases hLost : seeded seed (matched chosen row b) = 0
        · simp [hNone, hLost, hAlone]
        · simp [hNone, hLost, hNothing]

variable {a b c seed}

theorem mem_join {m : Solution} :
    m ∈ join a b ↔ ∃ row ∈ a, ∃ other ∈ b, row.merge? other = some m := by
  simp only [join, Multiset.mem_bind, mem_seeded]

theorem mem_leftJoin {m : Solution} (h : m ∈ leftJoin a b) : m ∈ join a b ∨ m ∈ a := by
  rcases Multiset.mem_add.mp h with hJoin | hAlone
  · exact .inl hJoin
  · exact .inr (Multiset.mem_of_mem_filter hAlone)

/-- No left row is bereft by a seed that has in common with the left rows what it has in common with a right
row. -/
theorem seeded_bereft (chosen : Solution → Bool) (h : ∀ row ∈ a, seed.compatible row = true →
    ∀ other ∈ b, row.compatible other = true → seed.compatible other = true) :
    seeded seed (bereft chosen seed a b) = 0 := by
  rw [seeded_eq_zero_iff]
  intro row hMem
  rw [← Bool.not_eq_true]
  intro hCompatible
  obtain ⟨hRow, hSome, hLost⟩ := Multiset.mem_filter.mp hMem
  obtain ⟨m, hM⟩ := Multiset.exists_mem_of_ne_zero hSome
  obtain ⟨other, hOther, hMerge⟩ := (mem_seeded b row).mp (Multiset.mem_filter.mp hM).1
  obtain ⟨hRowOther, rfl⟩ := Solution.merge?_eq_some_iff.mp hMerge
  have hAll := Solution.compatible_union (c := seed) hRowOther
  rw [Solution.compatible_comm, (seeded_eq_zero_iff _ seed).mp hLost _ hM, Solution.compatible_comm row,
    hCompatible, Solution.compatible_comm other, h row hRow hCompatible other hOther hRowOther] at hAll
  exact Bool.false_ne_true hAll

/-- Such a seed may be put into the left argument only. -/
theorem seeded_leftJoin (h : ∀ row ∈ a, seed.compatible row = true →
    ∀ other ∈ b, row.compatible other = true → seed.compatible other = true) :
    seeded seed (leftJoin a b) =
      (seeded seed a).bind fun row => if seeded row b = 0 then {row} else seeded row b := by
  have hAll := @bind_seeded_orElse a b seed (fun _ => true) (fun _ => true) fun _ _ _ _ _ _ => rfl
  rw [seeded_bereft _ h, add_zero, leftJoinIf_true] at hAll
  rw [← hAll]
  refine Multiset.bind_congr fun row _ => ?_
  rw [matched_true, orElse]

/-- More rows on the left are more rows of all. -/
theorem bind_le_bind {rows : Bag} (hRows : rows ≤ a) (f : Solution → Bag) :
    rows.bind f ≤ a.bind f := by
  obtain ⟨more, rfl⟩ := Multiset.le_iff_exists_add.mp hRows
  rw [Multiset.add_bind]
  exact Multiset.le_add_right _ _

theorem bind_coe (rows : List Solution) (f : Solution → Bag) :
    (rows : Bag).bind f = (rows.map f).sum := by
  rw [Multiset.bind, Multiset.join, Multiset.map_coe, Multiset.sum_coe]

/-- Fewer rows weigh less. -/
theorem sum_map_le {rows : Bag} (hRows : rows ≤ a) (f : Solution → Nat) :
    (rows.map f).sum ≤ (a.map f).sum := by
  obtain ⟨more, rfl⟩ := Multiset.le_iff_exists_add.mp hRows
  rw [Multiset.map_add, Multiset.sum_add]
  exact Nat.le_add_right _ _

end Bag

end SolutionFlow
