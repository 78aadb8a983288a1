import SolutionFlow.Spill.Sorter

/-! Where the keys of a sorter come from: nothing comes out of it that has not been added. -/
namespace SolutionFlow

namespace Counted

variable {κ : Type} {P : κ → Prop} {all : Counted κ}

/-- All keys that are counted fulfil `P`. -/
def All (P : κ → Prop) (all : Counted κ) : Prop := ∀ entry ∈ all, P entry.1

theorem all_nil : All P [] := fun _ hMem => absurd hMem List.not_mem_nil

theorem all_cons {entry : κ × Nat} : All P (entry :: all) ↔ P entry.1 ∧ All P all :=
  List.forall_mem_cons

theorem all_reverse : All P all.reverse ↔ All P all := by
  simp [All]

theorem All.dropExcess (h : all.All P) (limit size : Nat) :
    (Counted.dropExcess limit all size).1.All P := by
  induction all generalizing size with
  | nil => exact all_nil
  | cons entry rest ih =>
      obtain ⟨hKey, hRest⟩ := all_cons.mp h
      rw [Counted.dropExcess]
      split
      · exact h
      split
      · exact all_cons.mpr ⟨hKey, hRest⟩
      · exact ih hRest _

variable [Ord κ]

theorem All.add (h : all.All P) {key : κ} (hKey : P key) (count : Nat) :
    (Counted.add key count all).All P := by
  induction all with
  | nil => exact all_cons.mpr ⟨hKey, all_nil⟩
  | cons entry rest ih =>
      obtain ⟨hFirst, hRest⟩ := all_cons.mp h
      rw [Counted.add]
      split
      · exact all_cons.mpr ⟨hKey, h⟩
      · exact all_cons.mpr ⟨hFirst, hRest⟩
      · exact all_cons.mpr ⟨hFirst, ih hRest⟩

theorem all_popLeast {sources rest : List (Counted κ)} {least : κ × Nat}
    (h : ∀ source ∈ sources, source.All P) (hPop : popLeast sources = some (least, rest)) :
    P least.1 ∧ ∀ source ∈ rest, source.All P := by
  obtain ⟨before, later, after, rfl, rfl⟩ := popLeast_split hPop
  obtain ⟨hBefore, hOthers⟩ := List.forall_mem_append.mp h
  obtain ⟨hSource, hAfter⟩ := List.forall_mem_cons.mp hOthers
  obtain ⟨hLeast, hLater⟩ := all_cons.mp hSource
  exact ⟨hLeast, List.forall_mem_append.mpr ⟨hBefore, List.forall_mem_cons.mpr ⟨hLater, hAfter⟩⟩⟩

theorem all_gather {sources : List (Counted κ)} (h : ∀ source ∈ sources, source.All P) (key : κ)
    (count : Nat) : ∀ source ∈ (gather key count sources).2, source.All P := by
  fun_induction gather key count sources with
  | case1 => exact h
  | case2 count sources next rest hPop hSame ih => exact ih (all_popLeast h hPop).2
  | case3 => exact h

theorem all_mergeAll {sources : List (Counted κ)} (h : ∀ source ∈ sources, source.All P) (limit : Nat) :
    (mergeAll limit sources).All P := by
  fun_induction mergeAll limit sources with
  | case1 => exact all_nil
  | case2 => exact all_nil
  | case3 limit sources hLimit key n rest hPop gathered count ih =>
      obtain ⟨hKey, hRest⟩ := all_popLeast h hPop
      exact all_cons.mpr ⟨hKey, ih (all_gather hRest key n)⟩

end Counted

namespace Sorter

variable {κ : Type} {P : κ → Prop} {s : Sorter κ}

/-- All keys in memory and in runs fulfil `P`. -/
def All (P : κ → Prop) (s : Sorter κ) : Prop := s.held.All P ∧ ∀ run ∈ s.runs, run.All P

theorem all_new (limit : Nat) (options : SpillOptions) : (new limit options).All P :=
  ⟨Counted.all_nil, by simp [new]⟩

theorem all_close (s : Sorter κ) : s.close.All P := ⟨Counted.all_nil, by simp [close]⟩

theorem All.trim (h : s.All P) : s.trim.All P :=
  ⟨Counted.all_reverse.mpr ((Counted.all_reverse.mpr h.1).dropExcess s.limit s.size), h.2⟩

theorem All.spill (h : s.All P) : s.spill.2.All P := by
  unfold Sorter.spill
  split
  · exact h
  split
  · refine ⟨Counted.all_nil, ?_⟩
    simp only [List.forall_mem_append, List.forall_mem_singleton]
    exact ⟨h.2, h.1⟩
  · exact h

variable [Ord κ]

theorem All.add (h : s.All P) {key : κ} (hKey : P key) : (s.add key).2.All P := by
  unfold Sorter.add
  split
  · exact h
  split
  · exact h
  · exact All.spill (All.trim ⟨h.1.add hKey 1, h.2⟩)

theorem All.sorted (h : s.All P) : s.sorted.All P :=
  Counted.all_mergeAll (List.forall_mem_cons.mpr h) s.limit

/-- What is taken out fulfils `P`, and nothing is left. -/
theorem All.drain (h : s.All P) :
    (∀ sorted, s.drain.1 = .ok sorted → sorted.All P) ∧ s.drain.2.All P := by
  unfold Sorter.drain
  split
  · exact ⟨by simp, h⟩
  · refine ⟨fun sorted hSorted => ?_, Counted.all_nil, by simp⟩
    rw [← Except.ok.inj hSorted]
    exact h.sorted

end Sorter

end SolutionFlow
