import Mathlib.Data.List.Basic
import Mathlib.Data.List.Nodup

/-! First occurrences. To keep only the first of equal items goes together with leaving some out and with
sorting stably: it does not matter which is done first. -/
namespace SolutionFlow

section

variable {α : Type} [BEq α]

theorem eraseDups_sublist (items : List α) : items.eraseDups.Sublist items := by
  match items with
  | [] => exact .slnil
  | item :: rest =>
      have ih := eraseDups_sublist (rest.filter fun other => !other == item)
      rw [List.eraseDups_cons]
      exact (ih.trans List.filter_sublist).cons_cons item
termination_by items.length
decreasing_by simpa using Nat.lt_succ_of_le (List.length_filter_le _ rest)

variable [LawfulBEq α]

theorem eraseDups_concat (items : List α) (item : α) [Decidable (item ∈ items)] :
    (items ++ [item]).eraseDups =
      if item ∈ items then items.eraseDups else items.eraseDups ++ [item] := by
  rw [List.eraseDups_append]
  split
  next hOld => simp [List.removeAll, hOld]
  next hNew => simp [List.removeAll, hNew, List.eraseDups_cons]

theorem filter_eraseDups (p : α → Bool) (items : List α) :
    items.eraseDups.filter p = (items.filter p).eraseDups := by
  match items with
  | [] => rfl
  | item :: rest =>
      have ih := filter_eraseDups p (rest.filter fun other => !other == item)
      rw [List.eraseDups_cons]
      by_cases hItem : p item = true
      · rw [List.filter_cons_of_pos hItem, List.filter_cons_of_pos hItem, List.eraseDups_cons, ih,
          List.filter_comm]
      · rw [List.filter_cons_of_neg hItem, List.filter_cons_of_neg hItem, ih, List.filter_filter]
        congr 1
        refine List.filter_congr fun other _ => ?_
        cases hOther : p other with
        | false => rfl
        | true =>
            have hNe : other ≠ item := fun hSame => hItem (hSame ▸ hOther)
            simp [hNe]
termination_by items.length
decreasing_by simpa using Nat.lt_succ_of_le (List.length_filter_le _ rest)

theorem eraseDups_of_nodup {items : List α} (h : items.Nodup) : items.eraseDups = items := by
  induction items with
  | nil => rfl
  | cons item rest ih =>
      obtain ⟨hItem, hRest⟩ := List.nodup_cons.mp h
      have hAll : rest.filter (fun other => !other == item) = rest := by
        rw [List.filter_eq_self]
        intro other hMem
        have hNe : other ≠ item := fun hSame => hItem (hSame ▸ hMem)
        simp [hNe]
      rw [List.eraseDups_cons, hAll, ih hRest]

theorem nodup_eraseDups (items : List α) : items.eraseDups.Nodup := by
  match items with
  | [] => exact List.nodup_nil
  | item :: rest =>
      have ih := nodup_eraseDups (rest.filter fun other => !other == item)
      rw [List.eraseDups_cons, List.nodup_cons]
      exact ⟨by simp [List.mem_eraseDups], ih⟩
termination_by items.length
decreasing_by simpa using Nat.lt_succ_of_le (List.length_filter_le _ rest)

/-- The same items in another order have the same first occurrences in another order. -/
theorem perm_eraseDups {items others : List α} (h : items.Perm others) :
    items.eraseDups.Perm others.eraseDups := by
  refine (List.perm_ext_iff_of_nodup (nodup_eraseDups items) (nodup_eraseDups others)).mpr fun item => ?_
  rw [List.mem_eraseDups, List.mem_eraseDups, h.mem_iff]

theorem eraseDups_map {β : Type} [BEq β] [LawfulBEq β] {f : α → β} (hInjective : f.Injective)
    (items : List α) : (items.map f).eraseDups = items.eraseDups.map f := by
  match items with
  | [] => rfl
  | item :: rest =>
      have ih := eraseDups_map hInjective (rest.filter fun other => !other == item)
      have hOther (other : α) : (!f other == f item) = !other == item := by
        rw [Bool.eq_iff_iff]
        simp [hInjective.eq_iff]
      simp only [List.map_cons, List.eraseDups_cons, List.filter_map, Function.comp_def, hOther, ih]
termination_by items.length
decreasing_by simpa using Nat.lt_succ_of_le (List.length_filter_le _ rest)

end

section

variable {α : Type} {le : α → α → Bool}

section

variable (hTrans : ∀ a b c, le a b = true → le b c = true → le a c = true)
  (hTotal : ∀ a b, (le a b || le b a) = true)

include hTrans hTotal

/-- An item more divides the others into those that go before it and those that stay behind it. -/
theorem mergeSort_cons_eq (item : α) (items : List α) :
    (item :: items).mergeSort le =
      ((items.mergeSort le).filter fun b => !le item b) ++
        item :: (items.mergeSort le).filter (le item) ∧
    items.mergeSort le =
      ((items.mergeSort le).filter fun b => !le item b) ++ (items.mergeSort le).filter (le item) := by
  obtain ⟨before, behind, hAll, hRest, hBefore⟩ := List.mergeSort_cons hTrans hTotal item items
  have hSorted := List.pairwise_mergeSort hTrans hTotal (item :: items)
  rw [hAll] at hSorted
  have hBehind := (List.pairwise_cons.mp (List.pairwise_append.mp hSorted).2.1).1
  have hFirst : (items.mergeSort le).filter (fun b => !le item b) = before := by
    rw [hRest, List.filter_append, List.filter_eq_self.mpr hBefore, List.filter_eq_nil_iff.mpr,
      List.append_nil]
    exact fun b hMem => by simp [hBehind b hMem]
  have hSecond : (items.mergeSort le).filter (le item) = behind := by
    rw [hRest, List.filter_append, List.filter_eq_self.mpr hBehind, List.filter_eq_nil_iff.mpr,
      List.nil_append]
    exact fun b hMem => by simpa using hBefore b hMem
  rw [hFirst, hSecond]
  exact ⟨hAll, hRest⟩

theorem filter_mergeSort (p : α → Bool) (items : List α) :
    (items.mergeSort le).filter p = (items.filter p).mergeSort le := by
  induction items with
  | nil => simp
  | cons item rest ih =>
      obtain ⟨hAll, hRest⟩ := mergeSort_cons_eq hTrans hTotal item rest
      by_cases hItem : p item = true
      · rw [hAll, List.filter_cons_of_pos hItem, (mergeSort_cons_eq hTrans hTotal item _).1, ← ih,
          List.filter_append, List.filter_cons_of_pos hItem, List.filter_comm, List.filter_comm p]
      · rw [hAll, List.filter_cons_of_neg hItem, ← ih, List.filter_append,
          List.filter_cons_of_neg hItem, ← List.filter_append, ← hRest]

variable [BEq α] [LawfulBEq α]

/-- To sort first occurrences stably is to keep the first occurrences of what has been sorted. -/
theorem mergeSort_eraseDups (items : List α) :
    items.eraseDups.mergeSort le = (items.mergeSort le).eraseDups := by
  match items with
  | [] => simp
  | item :: rest =>
      have ih := mergeSort_eraseDups (rest.filter fun other => !other == item)
      have hSelf : le item item = true := by simpa using hTotal item item
      -- no item that goes before `item` is one that stays behind it, so each part has its own repeats
      have hOther : ((rest.mergeSort le).filter fun b => !le item b).filter (fun b => !b == item) =
          (rest.mergeSort le).filter fun b => !le item b := by
        rw [List.filter_eq_self]
        intro b hMem
        have hNe : b ≠ item := by
          rintro rfl
          simp [hSelf] at hMem
        simp [hNe]
      have hApart : (item :: (rest.mergeSort le).filter (le item)).removeAll
          ((rest.mergeSort le).filter fun b => !le item b) =
            item :: (rest.mergeSort le).filter (le item) := by
        rw [List.removeAll, List.filter_eq_self]
        intro b hMem
        have hLe : le item b = true := by
          rcases List.mem_cons.mp hMem with rfl | hBehind
          · exact hSelf
          · exact (List.mem_filter.mp hBehind).2
        simp [hLe]
      rw [List.eraseDups_cons, (mergeSort_cons_eq hTrans hTotal item _).1, ih,
        (mergeSort_cons_eq hTrans hTotal item rest).1, List.eraseDups_append, hApart,
        List.eraseDups_cons, ← filter_mergeSort hTrans hTotal, filter_eraseDups, filter_eraseDups,
        List.filter_comm, hOther, List.filter_comm]
termination_by items.length
decreasing_by simpa using Nat.lt_succ_of_le (List.length_filter_le _ rest)

end

end

end SolutionFlow
