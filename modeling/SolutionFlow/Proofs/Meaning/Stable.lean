import Mathlib.Data.List.Nodup
import Mathlib.Data.List.Dedup
import SolutionFlow.Flow.Operator.Sorting
import SolutionFlow.Proofs.Meaning.Firsts
import SolutionFlow.Proofs.Spill.Sorted
import SolutionFlow.Proofs.Term.Order

/-! Stable sorting. Keys that have been made of rows in the order in which they came are in one order only,
and the rows of the keys in this order are the rows in stable order of their values. -/
namespace SolutionFlow

theorem Term.cmpOptional_eq (a b : Option Term) : cmpOptional a b = compare a b := by
  cases a <;> cases b <;> rfl

/-- Things can be compared by what they are mapped to. -/
theorem transCmp_comap {α β : Type} (cmp : β → β → Ordering) [Std.TransCmp cmp] (f : α → β) :
    Std.TransCmp fun a b => cmp (f a) (f b) where
  eq_swap := Std.OrientedCmp.eq_swap
  isLE_trans := Std.TransCmp.isLE_trans

namespace SortKey

instance (direction : Direction) : Std.TransCmp (cmpDirected direction) := by
  cases direction with
  | ascending =>
      have hCmp : cmpDirected .ascending = compare := by
        funext a b
        exact Term.cmpOptional_eq a b
      rw [hCmp]
      infer_instance
  | descending =>
      have hCmp : cmpDirected .descending = fun a b => compare b a := by
        funext a b
        rw [cmpDirected, Term.cmpOptional_eq, ← Std.OrientedOrd.eq_swap]
      rw [hCmp]
      infer_instance

/-- The order of two lists of values in given directions. What is missing counts as unbound. -/
def cmpColumns : List Direction → List (Option Term) → List (Option Term) → Ordering
  | [], _, _ => .eq
  | direction :: directions, as, bs =>
    (cmpDirected direction as.head?.join bs.head?.join).then
      (cmpColumns directions as.tail bs.tail)

instance : Std.TransCmp (cmpColumns []) where
  eq_swap := rfl
  isLE_trans _ _ := rfl

instance (directions : List Direction) : Std.TransCmp (cmpColumns directions) := by
  induction directions with
  | nil => infer_instance
  | cons direction rest ih =>
      have hFirst := transCmp_comap (cmpDirected direction)
        fun values : List (Option Term) => values.head?.join
      have hRest := transCmp_comap (cmpColumns rest) List.tail
      have hCmp : cmpColumns (direction :: rest) = compareLex
          (fun as bs => cmpDirected direction as.head?.join bs.head?.join)
          (fun as bs => cmpColumns rest as.tail bs.tail) := rfl
      rw [hCmp]
      infer_instance

/-- Values of the same sort expressions are compared column by column. -/
theorem cmpValues_eq {directions : List Direction} {as bs : List (Direction × Option Term)}
    (hA : as.map Prod.fst = directions) (hB : bs.map Prod.fst = directions) :
    cmpValues as bs = cmpColumns directions (as.map Prod.snd) (bs.map Prod.snd) := by
  induction directions generalizing as bs with
  | nil =>
      obtain rfl := List.map_eq_nil_iff.mp hA
      rfl
  | cons direction rest ih =>
      obtain ⟨a, as, rfl, rfl, hRestA⟩ := List.map_eq_cons_iff.mp hA
      obtain ⟨b, bs, rfl, hSame, hRestB⟩ := List.map_eq_cons_iff.mp hB
      simp only [cmpValues, cmpColumns, ih hRestA hRestB]
      rfl

end SortKey

namespace Sorting

/-- A row with the values that it is sorted by. -/
abbrev Valued := List (Direction × Option Term) × Solution

/-- Whether a row may stay before another one. -/
def before (a b : Valued) : Bool := (SortKey.cmpValues a.1 b.1).isLE

/-- The rows in stable order of their values. -/
def stable (entries : List Valued) : List Solution := (entries.mergeSort before).map Prod.snd

/-- The values of all rows are those of sort expressions in these directions. -/
def Directed (directions : List Direction) (entries : List Valued) : Prop :=
  ∀ entry ∈ entries, entry.1.map Prod.fst = directions

/-- Whether a row may stay before another one, in given directions. -/
def beforeIn (directions : List Direction) (a b : Valued) : Bool :=
  (SortKey.cmpColumns directions (a.1.map Prod.snd) (b.1.map Prod.snd)).isLE

variable {directions : List Direction} {entries : List Valued}

theorem beforeIn_trans (a b c : Valued) (hAB : beforeIn directions a b = true)
    (hBC : beforeIn directions b c = true) : beforeIn directions a c = true :=
  Std.TransCmp.isLE_trans hAB hBC

theorem beforeIn_swap (a b : Valued) :
    beforeIn directions b a =
      (SortKey.cmpColumns directions (a.1.map Prod.snd) (b.1.map Prod.snd)).swap.isLE := by
  rw [beforeIn, ← Std.OrientedCmp.eq_swap]

theorem beforeIn_total (a b : Valued) : (beforeIn directions a b || beforeIn directions b a) = true := by
  rw [beforeIn_swap a b, beforeIn]
  cases SortKey.cmpColumns directions (a.1.map Prod.snd) (b.1.map Prod.snd) <;> rfl

theorem Directed.before_eq (h : Directed directions entries) :
    ∀ a ∈ entries, ∀ b ∈ entries, before a b = beforeIn directions a b := by
  intro a hA b hB
  rw [before, beforeIn, SortKey.cmpValues_eq (h a hA) (h b hB)]

theorem Directed.mergeSort_eq (h : Directed directions entries) :
    entries.mergeSort before = entries.mergeSort (beforeIn directions) := by
  have hSort := List.map_mergeSort (f := id) h.before_eq
  simpa using hSort

/-- The key of a row with its number. -/
def keyOf (entry : Valued × Nat) : SortKey := ⟨entry.1.1, entry.2, entry.1.2⟩

/-- The keys of rows that have come in this order. -/
def numbered (entries : List Valued) : List SortKey := entries.zipIdx.map keyOf

theorem numbered_concat (entries : List Valued) (entry : Valued) :
    numbered (entries ++ [entry]) = numbered entries ++ [⟨entry.1, entries.length, entry.2⟩] := by
  simp [numbered, List.zipIdx_append, keyOf]

/-- A key that goes before another one, by the values or else by the number. -/
theorem compare_keyOf {a b : Valued × Nat} (hA : a.1.1.map Prod.fst = directions)
    (hB : b.1.1.map Prod.fst = directions) (hNumbers : a.2 ≠ b.2)
    (hBefore : List.zipIdxLE (beforeIn directions) a b = true) :
    compare (keyOf a) (keyOf b) = .lt ∧ compare (keyOf b) (keyOf a) = .gt := by
  have hAB := SortKey.cmpValues_eq hA hB
  have hBA := (SortKey.cmpValues_eq hB hA).trans Std.OrientedCmp.eq_swap
  rw [List.zipIdxLE, beforeIn_swap a.1 b.1, beforeIn] at hBefore
  change (SortKey.cmpValues a.1.1 b.1.1).then (compare a.2 b.2) = .lt ∧
    (SortKey.cmpValues b.1.1 a.1.1).then (compare b.2 a.2) = .gt
  rw [hAB, hBA]
  cases hCmp : SortKey.cmpColumns directions (a.1.1.map Prod.snd) (b.1.1.map Prod.snd) with
  | lt => exact ⟨rfl, rfl⟩
  | gt => simp [hCmp] at hBefore
  | eq =>
      have hLe : a.2 ≤ b.2 := by simpa [hCmp] using hBefore
      have hLess : a.2 < b.2 := by omega
      exact ⟨compare_lt_iff_lt.mpr hLess, compare_gt_iff_gt.mpr hLess⟩

/-- There is an order of the keys, and it is that of the rows. -/
theorem Directed.exists_order (h : Directed directions entries) :
    ∃ order, Ascending order ∧ order.Perm (numbered entries) ∧
      order.map SortKey.row = stable entries := by
  let le := List.zipIdxLE (beforeIn directions)
  have hPerm : (entries.zipIdx.mergeSort le).Perm entries.zipIdx := List.mergeSort_perm _ _
  refine ⟨(entries.zipIdx.mergeSort le).map keyOf, ?_, hPerm.map keyOf, ?_⟩
  · have hSorted : (entries.zipIdx.mergeSort le).Pairwise fun a b => le a b = true :=
      List.pairwise_mergeSort (List.zipIdxLE_trans beforeIn_trans)
        (List.zipIdxLE_total beforeIn_total) _
    have hNumbers : (entries.zipIdx.mergeSort le).Pairwise fun a b => a.2 ≠ b.2 := by
      rw [← List.pairwise_map, ← List.Nodup, (hPerm.map Prod.snd).nodup_iff, List.zipIdx_map_snd]
      exact List.nodup_range'
    have hDirected : ∀ a ∈ entries.zipIdx.mergeSort le, a.1.1.map Prod.fst = directions :=
      fun a hMem => h a.1 (List.fst_mem_of_mem_zipIdx (hPerm.mem_iff.mp hMem))
    rw [Ascending, List.pairwise_map]
    exact (hSorted.and hNumbers).imp_of_mem fun hA hB hBoth =>
      compare_keyOf (hDirected _ hA) (hDirected _ hB) hBoth.2 hBoth.1
  · have hSort : (entries.zipIdx.mergeSort le).map Prod.fst = entries.mergeSort (beforeIn directions) :=
      List.mergeSort_zipIdx
    rw [stable, h.mergeSort_eq, ← hSort, List.map_map, List.map_map]
    rfl

/-- With an entry more there is an order again, of the key of the entry and the keys before. -/
theorem Directed.exists_order_concat {entry : Valued} {order : List SortKey}
    (h : Directed directions (entries ++ [entry])) (hPerm : order.Perm (numbered entries)) :
    ∃ order', Ascending order' ∧ order'.Perm (numbered (entries ++ [entry])) ∧
      order'.map SortKey.row = stable (entries ++ [entry]) ∧
      order'.Perm (⟨entry.1, entries.length, entry.2⟩ :: order) := by
  obtain ⟨order', hOrder', hPerm', hRows'⟩ := h.exists_order
  refine ⟨order', hOrder', hPerm', hRows', ?_⟩
  rw [numbered_concat] at hPerm'
  exact hPerm'.trans (List.perm_append_comm.trans (hPerm.symm.cons _))

/-- Rows with the values that a function gives them. -/
def valuedBy (value : Solution → List (Direction × Option Term)) (rows : List Solution) :
    List Valued :=
  rows.map fun row => (value row, row)

variable {value : Solution → List (Direction × Option Term)} {rows : List Solution}

/-- If no row comes twice, the values are a function of the rows. -/
theorem exists_eq_valuedBy (h : (entries.map Prod.snd).Nodup) :
    ∃ value, entries = valuedBy value (entries.map Prod.snd) := by
  have hValue : ∃ value : Solution → List (Direction × Option Term),
      ∀ entry ∈ entries, entry.1 = value entry.2 := by
    induction entries with
    | nil => exact ⟨fun _ => [], by simp⟩
    | cons entry rest ih =>
        obtain ⟨hNew, hRest⟩ := List.nodup_cons.mp h
        obtain ⟨value, hValue⟩ := ih hRest
        refine ⟨fun row => if row = entry.2 then entry.1 else value row,
          List.forall_mem_cons.mpr ⟨(if_pos rfl).symm, fun other hMem => ?_⟩⟩
        have hOther : other.2 ≠ entry.2 := fun hSame => hNew (hSame ▸ List.mem_map_of_mem hMem)
        exact (hValue other hMem).trans (if_neg hOther).symm
  obtain ⟨value, hValue⟩ := hValue
  refine ⟨value, ?_⟩
  rw [valuedBy, List.map_map]
  conv_lhs => rw [← List.map_id entries]
  exact List.map_congr_left fun entry hMem => Prod.ext (hValue entry hMem) rfl

theorem Directed.stable_valuedBy (h : Directed directions (valuedBy value rows)) :
    stable (valuedBy value rows) =
      rows.mergeSort fun a b => beforeIn directions (value a, a) (value b, b) := by
  have hSort : (rows.mergeSort fun a b => beforeIn directions (value a, a) (value b, b)).map
      (fun row => (value row, row)) = (valuedBy value rows).mergeSort (beforeIn directions) :=
    List.map_mergeSort fun a _ b _ => rfl
  rw [stable, h.mergeSort_eq, ← hSort, List.map_map]
  exact List.map_id _

/-- To sort the first occurrences of rows is to keep the first occurrences of the sorted rows. -/
theorem Directed.stable_eraseDups (h : Directed directions (valuedBy value rows)) :
    stable (valuedBy value rows.eraseDups) = (stable (valuedBy value rows)).eraseDups := by
  have hFirsts : Directed directions (valuedBy value rows.eraseDups) := fun entry hMem =>
    h entry (((eraseDups_sublist rows).map _).subset hMem)
  let le (a b : Solution) : Bool := beforeIn directions (value a, a) (value b, b)
  have hTrans (a b c : Solution) (hAB : le a b = true) (hBC : le b c = true) : le a c = true :=
    beforeIn_trans _ _ _ hAB hBC
  have hTotal (a b : Solution) : (le a b || le b a) = true := beforeIn_total _ _
  rw [h.stable_valuedBy, hFirsts.stable_valuedBy]
  exact mergeSort_eraseDups hTrans hTotal rows

theorem stable_perm (entries : List Valued) : (stable entries).Perm (entries.map Prod.snd) :=
  (List.mergeSort_perm entries before).map Prod.snd

end Sorting

end SolutionFlow
