import SolutionFlow.Spill.MemberSet

/-! Members of sets that go to disk. A member is found, whether it is in memory or in the file, and nothing
else is: what is read at the places that are noted for a hash are the members with that hash. -/
namespace SolutionFlow

namespace RecordFile

variable {α : Type} [Recordable α]

theorem scanFrom_written (p : α → Bool) (items : List α) :
    scanFrom p items.length (items.flatMap Recordable.write) = .ok (items.any p) := by
  induction items with
  | nil => rfl
  | cons item later ih =>
      rw [List.length_cons, List.flatMap_cons, scanFrom, Recordable.read_write]
      dsimp only
      rw [ih, List.any_cons]
      cases p item <;> rfl

/-- A scan tells whether some record fulfils the condition. -/
theorem scan_eq (f : RecordFile α) (p : α → Bool) : f.scan p = .ok (f.items.any p) := by
  rw [scan, cells_eq, ← length_items]
  exact scanFrom_written p f.items

/-- Where a record was written, it is read. -/
theorem readAt_eq {f : RecordFile α} {before later : List α} {item : α}
    (h : f.items = before ++ item :: later) :
    f.readAt (before.flatMap Recordable.write).length (Recordable.length item) = .ok item := by
  have hRead := Recordable.read_write item []
  rw [List.append_nil] at hRead
  rw [readAt, cells_eq, h, List.flatMap_append, List.drop_left, List.flatMap_cons,
    Recordable.toNat_length, List.take_left, if_neg (Nat.lt_irrefl _), hRead]

end RecordFile

namespace MemberFile

variable {α : Type} [Recordable α] [Hashable α] [DecidableEq α]

/-- A search at the places of the items with a hash finds what is among these items. -/
theorem search_placesFrom {file : RecordFile α} {later : List α} (before : List α)
    (h : file.items = before ++ later) (item : α) :
    search file item (placesFrom (hash item) (before.flatMap Recordable.write).length later) =
      .ok (decide (item ∈ later)) := by
  induction later generalizing before with
  | nil => simp [placesFrom, search]
  | cons first later ih =>
      have hLater := ih (before ++ [first]) (by simp [h])
      rw [List.flatMap_append, List.flatMap_singleton, List.length_append] at hLater
      rw [placesFrom]
      by_cases hSame : first = item
      · subst hSame
        rw [if_pos rfl, search, RecordFile.readAt_eq h]
        simp
      · have hMem : (item ∈ first :: later) = (item ∈ later) := by simp [Ne.symm hSame]
        simp only [hMem]
        split
        · rw [search, RecordFile.readAt_eq h]
          simp only [if_neg hSame, hLater]
        · exact hLater

/-- A file contains its members and nothing else. -/
theorem contains_eq (f : MemberFile α) (item : α) : f.contains item = .ok (decide (item ∈ f.items)) := by
  rw [contains, f.exact]
  exact search_placesFrom [] rfl item

end MemberFile

namespace MemberSet

variable {α : Type} [Recordable α] [Hashable α]

/-- An open set that has these items as its members. -/
structure Has (s : MemberSet α) (items : List α) : Prop where
  isOpen : s.closed = false
  mem_iff : ∀ x, x ∈ s.members ↔ x ∈ items

theorem has_new (options : SpillOptions) : (new options : MemberSet α).Has [] where
  isOpen := rfl
  mem_iff := by simp [members, new]

theorem size_eq (s : MemberSet α) : s.size = s.members.length := by
  rw [size, members, List.length_append]
  cases s.file with
  | none => rfl
  | some file => exact congrArg (s.memory.length + ·) file.file.length_items.symm

/-- An open set looks at all its members. -/
theorem any_eq {s : MemberSet α} (hOpen : s.closed = false) (p : α → Bool) :
    s.any p = .ok (s.members.any p) := by
  rw [any, if_neg (ne_true_of_eq_false hOpen), members, List.any_append]
  cases s.memory.any p with
  | true => rfl
  | false =>
      cases s.file with
      | none => rfl
      | some file => exact file.file.scan_eq p

/-- A new item is one member more, unless the set cannot make its file and stays as it is. -/
theorem store_cases (s : MemberSet α) (item : α) :
    (∃ s', s.store item = (.ok true, s') ∧ s'.closed = s.closed ∧ s'.options = s.options ∧
      s'.members.Perm (item :: s.members)) ∨
    (s.options.canWrite = false ∧ s.store item = (.error SpillOptions.unwritable, s)) := by
  unfold store
  split
  · exact .inl ⟨_, rfl, rfl, rfl, (List.perm_append_singleton item s.memory).append_right _⟩
  · split
    next file hFile =>
      refine .inl ⟨_, rfl, rfl, rfl, ?_⟩
      simpa [members, hFile, MemberFile.append, MemberFile.items] using
        List.perm_append_singleton item (s.memory ++ file.items)
    next hFile =>
      split
      next =>
        refine .inl ⟨_, rfl, rfl, rfl, ?_⟩
        simp [members, hFile, MemberFile.append, MemberFile.empty, MemberFile.items]
      next hWrite => exact .inr ⟨by simpa using hWrite, rfl⟩

variable [DecidableEq α] {s s' : MemberSet α} {item : α}

/-- What a set finds are its members. -/
theorem find_eq (s : MemberSet α) (item : α) : s.find item = .ok (decide (item ∈ s.members)) := by
  rw [find, members]
  by_cases hMemory : item ∈ s.memory
  · simp [hMemory]
  · rw [if_neg hMemory]
    cases s.file with
    | none => simp [hMemory]
    | some file => simp [hMemory, file.contains_eq]

theorem contains_eq (hOpen : s.closed = false) (item : α) :
    s.contains item = .ok (decide (item ∈ s.members)) := by
  rw [contains, if_neg (ne_true_of_eq_false hOpen), find_eq]

theorem mem_of_contains (h : s.contains item = .ok true) : item ∈ s.members := by
  cases hClosed : s.closed with
  | true => simp [contains, hClosed] at h
  | false => simpa [contains_eq hClosed] using h

theorem add_eq (s : MemberSet α) (item : α) :
    s.add item =
      if s.closed then (.error .closed, s)
      else if item ∈ s.members then (.ok false, s)
      else s.store item := by
  rw [add, find_eq]
  by_cases hMem : item ∈ s.members <;> simp [hMem]

/-- A closed set refuses. An open one has the item, takes it, or cannot make its file. -/
theorem add_cases (s : MemberSet α) (item : α) :
    (s.closed = true ∧ s.add item = (.error .closed, s)) ∨
    (s.closed = false ∧ ∃ isNew s', s.add item = (.ok isNew, s') ∧ s'.closed = false ∧
      isNew = decide (item ∉ s.members) ∧ s'.options = s.options ∧
      ∀ x, x ∈ s'.members ↔ x ∈ s.members ∨ x = item) ∨
    (s.closed = false ∧ s.add item = (.error SpillOptions.unwritable, s) ∧ s.options.canWrite = false) := by
  rw [add_eq]
  cases hClosed : s.closed with
  | true => exact .inl ⟨rfl, by simp⟩
  | false =>
      right
      by_cases hMem : item ∈ s.members
      · refine .inl ⟨rfl, false, s, by simp [hMem], hClosed, by simp [hMem], rfl, fun x => ⟨.inl, ?_⟩⟩
        rintro (hOld | rfl)
        · exact hOld
        · exact hMem
      · simp only [Bool.false_eq_true, ↓reduceIte, hMem]
        rcases s.store_cases item with ⟨s', hStore, hSame, hOptions, hPerm⟩ | ⟨hWrite, hStore⟩
        · refine .inl ⟨trivial, true, s', hStore, hSame.trans hClosed, by simp, hOptions, fun x => ?_⟩
          rw [hPerm.mem_iff, List.mem_cons, or_comm]
        · exact .inr ⟨trivial, hStore, hWrite⟩

/-- An open set takes a new item if it can make a file, or if it needs none. -/
theorem exists_add_new (hOpen : s.closed = false) (hNew : item ∉ s.members)
    (hRoom : s.options.canWrite = true ∨ s.members.length < s.options.threshold) :
    ∃ s', s.add item = (.ok true, s') ∧ s'.closed = false ∧ s'.options = s.options ∧
      s'.members.Perm (item :: s.members) := by
  rw [add_eq, if_neg (ne_true_of_eq_false hOpen), if_neg hNew]
  rcases s.store_cases item with ⟨s', hStore, hClosed, hOptions, hPerm⟩ | ⟨hWrite, hStore⟩
  · exact ⟨s', hStore, hClosed.trans hOpen, hOptions, hPerm⟩
  · rcases hRoom with hCan | hFew
    · simp [hWrite] at hCan
    · have hMemory : s.memory.length < s.options.threshold := by
        rw [members, List.length_append] at hFew
        omega
      rw [store, if_pos hMemory] at hStore
      simp at hStore

/-- A set gets no other members than those it takes. -/
theorem mem_of_mem_add {x : α} (h : x ∈ (s.add item).2.members) : x ∈ s.members ∨ x = item := by
  rcases s.add_cases item with ⟨-, hAdd⟩ | ⟨-, _, s', hAdd, -, -, -, hMembers⟩ | ⟨-, hAdd, -⟩ <;>
    rw [hAdd] at h
  · exact .inl h
  · exact (hMembers x).mp h
  · exact .inl h

/-- A set that takes an item tells whether it is new, and has it as a member from then on. -/
theorem add_ok {isNew : Bool} (hAdd : s.add item = (.ok isNew, s')) :
    isNew = decide (item ∉ s.members) ∧ s'.closed = s.closed ∧ s'.options = s.options ∧
      ∀ x, x ∈ s'.members ↔ x ∈ s.members ∨ x = item := by
  rcases s.add_cases item with ⟨-, h⟩ | ⟨hOpen, _, next, h, hOpen', hNew, hOptions, hMembers⟩ | ⟨-, h, -⟩ <;>
    rw [h, Prod.mk.injEq] at hAdd
  · exact nomatch hAdd.1
  · obtain ⟨hSame, rfl⟩ := hAdd
    exact ⟨Except.ok.inj hSame ▸ hNew, hOpen'.trans hOpen.symm, hOptions, hMembers⟩
  · exact nomatch hAdd.1

/-- A set that refuses an item stays as it is. -/
theorem add_error {e : SpillError} (hAdd : s.add item = (.error e, s')) : s' = s := by
  rcases s.add_cases item with ⟨-, h⟩ | ⟨-, _, next, h, -⟩ | ⟨-, h, -⟩ <;> rw [h, Prod.mk.injEq] at hAdd
  · exact hAdd.2.symm
  · exact nomatch hAdd.1
  · exact hAdd.2.symm

/-- One item more, and the answer whether it had been there. -/
theorem Has.exists_add {items : List α} (h : s.Has items) (hWrite : s.options.canWrite = true)
    (item : α) :
    ∃ s', s.add item = (.ok (decide (item ∉ items)), s') ∧ s'.options = s.options ∧
      s'.Has (items ++ [item]) := by
  rcases s.add_cases item with
    ⟨hClosed, -⟩ | ⟨-, _, s', hAdd, hOpen, rfl, hOptions, hMembers⟩ | ⟨-, -, hNoFile⟩
  · simp [h.isOpen] at hClosed
  · simp only [h.mem_iff] at hAdd
    refine ⟨s', hAdd, hOptions, hOpen, fun x => ?_⟩
    rw [hMembers, h.mem_iff, List.mem_append, List.mem_singleton]
  · simp [hWrite] at hNoFile

end MemberSet

end SolutionFlow
