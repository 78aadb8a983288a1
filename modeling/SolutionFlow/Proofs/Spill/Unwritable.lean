import SolutionFlow.Proofs.Spill.Sorted

/-! Sorters that may not be able to make files. As long as such a sorter has not failed, it gives back what
one gives back that can; and it fails as soon as the first keys, up to its limit, are as many as make
a run. -/
namespace SolutionFlow.Sorter

open Counted

variable {κ : Type} {s : Sorter κ}

/-- The same sorter, if it could make files. -/
def writable (s : Sorter κ) : Sorter κ := { s with options := { s.options with canWrite := true } }

theorem writable_of_canWrite (h : s.options.canWrite = true) : s.writable = s := by
  obtain ⟨⟨threshold, canWrite⟩, limit, held, size, runs, closed⟩ := s
  obtain rfl : canWrite = true := h
  rfl

variable [Ord κ] {order order' : List κ} {key : κ}

/-- An open sorter that has been given the keys of an order, and can give back the first of them. If it
cannot make files, it has them in memory, and they make no run. -/
structure Gathers (s : Sorter κ) (order : List κ) : Prop where
  collects : s.writable.Collects order
  inMemory : s.options.canWrite = false → s.runs = [] ∧ s.size ≤ s.limit

theorem gathers_new (limit : Nat) (options : SpillOptions) : (new limit options : Sorter κ).Gathers [] :=
  ⟨collects_new limit rfl, fun _ => ⟨rfl, Nat.zero_le _⟩⟩

theorem Gathers.isOpen (h : s.Gathers order) : s.closed = false := by
  obtain ⟨held, runs, hHolds⟩ := h.collects
  exact hHolds.isOpen

/-- What is in memory is all that is needed, if there are no runs. -/
theorem Collects.length_held (h : s.Collects order) (hOrder : Ascending order) (hRuns : s.runs = [])
    (hSize : s.size ≤ s.limit) : s.held.length = (order.take s.limit).length := by
  obtain ⟨held, runs, hHolds⟩ := h
  obtain rfl : runs = [] := List.map_eq_nil_iff.mp (hHolds.runs_eq.symm.trans hRuns)
  have hTake := (hHolds.represents.perm (.of_eq (List.append_nil held))).take_eq hOrder hHolds.sublist
  rw [hHolds.size_eq] at hSize
  rw [hHolds.held_eq, ofKeys, List.length_map, ← hTake, List.take_of_length_le hSize]

theorem options_add (s : Sorter κ) (key : κ) : (s.add key).2.options = s.options := by
  unfold Sorter.add
  split
  · rfl
  split
  · rfl
  unfold Sorter.spill
  split
  · rfl
  split <;> rfl

/-- A sorter cannot make files, but the keys that it needs are as many as make a run. -/
def Overfull (s : Sorter κ) (order : List κ) : Prop :=
  s.options.canWrite = false ∧ s.runLength ≤ (order.take s.limit).length

section

variable (h : s.Gathers order) (hOrder : Ascending order) (hOrder' : Ascending order')
  (hPerm : order'.Perm (key :: order))

include h hOrder hOrder' hPerm

/-- Without files, a key more is taken as long as there is no run to be made. -/
theorem Gathers.add_of_unwritable (hWrite : s.options.canWrite = false) :
    ∃ s', s'.limit = s.limit ∧ s'.options = s.options ∧
      (s.add key = (.ok (), s') ∧ s'.Gathers order' ∧ ¬s.Overfull order' ∨
        s.add key = (.error SpillOptions.unwritable, s') ∧ s.Overfull order') := by
  obtain ⟨hRuns, hSize⟩ := h.inMemory hWrite
  have hOpen : ¬s.closed = true := by simp [h.isOpen]
  rw [Sorter.add, if_neg hOpen]
  split
  next hZero =>
    obtain ⟨s', hAdd, -, hNext⟩ := h.collects.add hOrder hOrder' hPerm
    have hNone : s.writable.add key = (.ok (), s.writable) := by
      rw [Sorter.add, if_neg (show ¬s.writable.closed = true from hOpen),
        if_pos (show s.writable.limit = 0 from hZero)]
    obtain rfl : s.writable = s' := (Prod.mk.inj (hNone.symm.trans hAdd)).2
    refine ⟨s, rfl, rfl, .inl ⟨rfl, ⟨hNext, h.inMemory⟩, fun hFull => ?_⟩⟩
    simpa [hZero, runLength] using hFull.2
  next hPositive =>
    let t := trim { s with held := Counted.add key 1 s.held, size := s.size + 1 }
    obtain ⟨hCollects, hSize'⟩ : t.writable.Collects order' ∧ t.size ≤ t.limit :=
      h.collects.insert hOrder hOrder' hPerm
    have hLength : t.held.length = (order'.take s.limit).length :=
      hCollects.length_held hOrder' hRuns hSize'
    refine ⟨t, rfl, rfl, ?_⟩
    change (t.spill = _ ∧ _) ∨ (t.spill = _ ∧ _)
    rw [Sorter.spill]
    split
    next hFew =>
      refine .inl ⟨rfl, ⟨hCollects, fun _ => ⟨hRuns, hSize'⟩⟩, fun hFull => ?_⟩
      exact absurd hFull.2 (Nat.not_le.mpr (hLength ▸ hFew))
    next hMany =>
      rw [if_neg (by simpa [t, Sorter.trim] using hWrite)]
      exact .inr ⟨rfl, hWrite, hLength ▸ Nat.not_lt.mp hMany⟩

/-- A sorter takes a key more, unless it cannot make the run that is due. -/
theorem Gathers.add :
    ∃ s', s'.limit = s.limit ∧ s'.options = s.options ∧
      (s.add key = (.ok (), s') ∧ s'.Gathers order' ∧ ¬s.Overfull order' ∨
        s.add key = (.error SpillOptions.unwritable, s') ∧ s.Overfull order') := by
  cases hWrite : s.options.canWrite with
  | false => exact h.add_of_unwritable hOrder hOrder' hPerm hWrite
  | true =>
      have hCollects := h.collects
      rw [writable_of_canWrite hWrite] at hCollects
      obtain ⟨s', hAdd, hLimit, hNext⟩ := hCollects.add hOrder hOrder' hPerm
      have hOptions : s'.options = s.options := by
        have hSame := options_add s key
        rwa [hAdd] at hSame
      have hWrite' : s'.options.canWrite = true := hOptions ▸ hWrite
      have hGathers : s'.Gathers order' :=
        ⟨(writable_of_canWrite hWrite').symm ▸ hNext, fun hNot => by simp [hWrite'] at hNot⟩
      refine ⟨s', hLimit, hOptions, .inl ⟨hAdd, hGathers, fun hFull => ?_⟩⟩
      simpa [hWrite] using hFull.1

end

/-- All that a sorter has to give back. -/
theorem Gathers.drain (h : s.Gathers order) (hOrder : Ascending order) :
    s.drain = (.ok (ofKeys (order.take s.limit)), { s with held := [], size := 0, runs := [] }) := by
  have hSorted := h.collects.sorted_eq hOrder
  have hOpen : ¬s.closed = true := by simp [h.isOpen]
  rw [Sorter.drain, if_neg hOpen]
  exact congrArg (fun keys => (Except.ok keys, _)) hSorted

end SolutionFlow.Sorter
