import Mathlib.Data.Finset.Card
import SolutionFlow.Proofs.Spill.Members

/-! Sets that go to disk as finite sets. Whatever is asked of such a set, it answers as the finite set of the
items that it has taken, wherever they are stored and however their hashes collide. It refuses a new item
only if this one would be the first in the file and the file cannot be made. -/
namespace SolutionFlow

namespace MemberSet

/-- What can be asked of a set. -/
inductive Request (α : Type) where
  | add (item : α)
  | contains (item : α)
  | any (p : α → Bool)
  | len
  | isEmpty
  | close

inductive Reply where
  | flag (answer : Except SpillError Bool)
  | count (n : Nat)
  | done
deriving DecidableEq

section

variable {α : Type} [Recordable α] [Hashable α]

/-- The same set, if from now on files can be made or not. -/
def access (s : MemberSet α) (canWrite : Bool) : MemberSet α :=
  { s with options := { s.options with canWrite } }

section

variable {s : MemberSet α} {m : Finset α}

/-- An open set that has these members, each of them once. The file is there if and only if there are more
of them than go into memory. -/
structure Depicts (s : MemberSet α) (m : Finset α) : Prop where
  isOpen : s.closed = false
  nodup : s.members.Nodup
  mem_iff : ∀ x, x ∈ s.members ↔ x ∈ m
  memory_le : s.memory.length ≤ s.options.threshold
  spilled : ∀ file, s.file = some file → s.memory.length = s.options.threshold ∧ file.items ≠ []

theorem depicts_new (options : SpillOptions) : (new options : MemberSet α).Depicts ∅ where
  isOpen := rfl
  nodup := List.nodup_nil
  mem_iff := by simp [members, new]
  memory_le := Nat.zero_le _
  spilled file hFile := by simp [new] at hFile

theorem Depicts.access (h : s.Depicts m) (canWrite : Bool) : (s.access canWrite).Depicts m := { h with }

theorem Depicts.any_eq (h : s.Depicts m) (p : α → Bool) : s.any p = .ok (decide (∃ x ∈ m, p x = true)) := by
  have hAny : (s.members.any p = true) = ∃ x ∈ m, p x = true := by
    simp only [List.any_eq_true, h.mem_iff]
  rw [MemberSet.any_eq h.isOpen]
  simp only [← hAny, Bool.decide_eq_true]

end

variable [DecidableEq α]

/-- How a finite set of at most so many items in memory, or a closed one, answers, and what becomes of it. -/
def ideal (threshold : Nat) (canWrite : Bool) : Option (Finset α) → Request α → Reply × Option (Finset α)
  | none, .add _ | none, .contains _ | none, .any _ => (.flag (.error .closed), none)
  | none, .len => (.count 0, none)
  | none, .isEmpty => (.flag (.ok true), none)
  | some m, .add item =>
    if item ∈ m then (.flag (.ok false), some m)
    else if m.card = threshold ∧ canWrite = false then (.flag (.error SpillOptions.unwritable), some m)
    else (.flag (.ok true), some (insert item m))
  | some m, .contains item => (.flag (.ok (decide (item ∈ m))), some m)
  | some m, .any p => (.flag (.ok (decide (∃ x ∈ m, p x = true))), some m)
  | some m, .len => (.count m.card, some m)
  | some m, .isEmpty => (.flag (.ok (decide (m = ∅))), some m)
  | _, .close => (.done, none)

/-- The answers of a finite set, if at each request a file can be made or not. -/
def idealReplies (threshold : Nat) : Option (Finset α) → List (Bool × Request α) → List Reply
  | _, [] => []
  | m, (canWrite, request) :: later =>
    (ideal threshold canWrite m request).1 ::
      idealReplies threshold (ideal threshold canWrite m request).2 later

def serve (s : MemberSet α) : Request α → Reply × MemberSet α
  | .add item => (.flag (s.add item).1, (s.add item).2)
  | .contains item => (.flag (s.contains item), s)
  | .any p => (.flag (s.any p), s)
  | .len => (.count s.size, s)
  | .isEmpty => (.flag (.ok s.isEmpty), s)
  | .close => (.done, s.close)

/-- The answers of a set, if at each request a file can be made or not. -/
def replies (s : MemberSet α) : List (Bool × Request α) → List Reply
  | [] => []
  | (canWrite, request) :: later =>
    ((s.access canWrite).serve request).1 :: ((s.access canWrite).serve request).2.replies later

namespace Depicts

variable {s s' : MemberSet α} {m : Finset α} {item : α}

theorem size_eq (h : s.Depicts m) : s.size = m.card := by
  rw [MemberSet.size_eq, ← List.toFinset_card_of_nodup h.nodup]
  congr 1
  ext x
  rw [List.mem_toFinset, h.mem_iff]

/-- There is no file exactly as long as the members are not more than go into memory. -/
theorem file_eq_none_iff (h : s.Depicts m) : s.file = none ↔ m.card ≤ s.options.threshold := by
  rw [← h.size_eq, MemberSet.size_eq, members]
  cases hFile : s.file with
  | none => simpa using h.memory_le
  | some file =>
      obtain ⟨hFull, hSome⟩ := h.spilled file hFile
      have hPositive := List.length_pos_iff.mpr hSome
      simp
      omega

theorem card_eq (h : s.Depicts m) :
    m.card = s.memory.length + ((s.file.map (·.items)).getD []).length := by
  rw [← h.size_eq, MemberSet.size_eq, members, List.length_append]

/-- A new item is one member more. -/
theorem mem_insert_iff (h : s.Depicts m) (hNew : item ∉ m) (hPerm : s'.members.Perm (item :: s.members)) :
    s'.members.Nodup ∧ ∀ x, x ∈ s'.members ↔ x ∈ insert item m := by
  refine ⟨hPerm.nodup_iff.mpr (List.nodup_cons.mpr ⟨mt (h.mem_iff item).mp hNew, h.nodup⟩), fun x => ?_⟩
  rw [hPerm.mem_iff, List.mem_cons, Finset.mem_insert, h.mem_iff]

/-- As long as there is room, a new item goes into memory. -/
theorem remember (h : s.Depicts m) (hNew : item ∉ m) (hRoom : s.memory.length < s.options.threshold) :
    Depicts { s with memory := s.memory ++ [item] } (insert item m) := by
  have hPerm : (members { s with memory := s.memory ++ [item] }).Perm (item :: s.members) :=
    (List.perm_append_singleton item s.memory).append_right _
  obtain ⟨hNodup, hMembers⟩ := h.mem_insert_iff hNew hPerm
  refine ⟨h.isOpen, hNodup, hMembers, ?_, fun file hFile => ?_⟩
  · rw [List.length_append]
    exact hRoom
  · exact absurd (h.spilled file hFile).1 (Nat.ne_of_lt hRoom)

/-- When memory is full, a new item goes to the end of the file. -/
theorem spill (h : s.Depicts m) (hNew : item ∉ m) (hFull : s.memory.length = s.options.threshold)
    {file : MemberFile α} (hItems : file.items = (s.file.map (·.items)).getD [] ++ [item]) :
    Depicts { s with file := some file } (insert item m) := by
  have hPerm : (members { s with file := some file }).Perm (item :: s.members) := by
    change (s.memory ++ file.items).Perm (item :: s.members)
    rw [hItems, ← List.append_assoc]
    exact List.perm_append_singleton item s.members
  obtain ⟨hNodup, hMembers⟩ := h.mem_insert_iff hNew hPerm
  refine ⟨h.isOpen, hNodup, hMembers, h.memory_le, ?_⟩
  rintro _ ⟨rfl⟩
  exact ⟨hFull, hItems ▸ List.append_ne_nil_of_right_ne_nil _ (List.cons_ne_nil _ _)⟩

/-- A new item is stored, unless it would be the first in a file that cannot be made. -/
theorem store (h : s.Depicts m) (hNew : item ∉ m) :
    ((m.card = s.options.threshold ∧ s.options.canWrite = false) ∧
      s.store item = (.error SpillOptions.unwritable, s)) ∨
    (¬(m.card = s.options.threshold ∧ s.options.canWrite = false) ∧
      ∃ s', s.store item = (.ok true, s') ∧ s'.options = s.options ∧ s'.Depicts (insert item m)) := by
  have hFile := h.file_eq_none_iff
  rw [MemberSet.store]
  split
  next hRoom =>
    refine .inr ⟨fun hLast => ?_, _, rfl, rfl, h.remember hNew hRoom⟩
    have hCard := h.card_eq
    simp [hFile.mpr (Nat.le_of_eq hLast.1)] at hCard
    omega
  next hNoRoom =>
    have hFull : s.memory.length = s.options.threshold := Nat.le_antisymm h.memory_le (Nat.not_lt.mp hNoRoom)
    split
    next file hSome =>
      refine .inr ⟨fun hLast => ?_, _, rfl, rfl, h.spill hNew hFull ?_⟩
      · simp [hFile.mpr (Nat.le_of_eq hLast.1)] at hSome
      · rw [hSome]
        exact file.file.items_append item
    next hNone =>
      split
      next hWrite =>
        refine .inr ⟨by simp [hWrite], _, rfl, rfl, h.spill hNew hFull ?_⟩
        rw [hNone]
        exact RecordFile.empty.items_append item
      next hWrite =>
        exact .inl ⟨⟨by simpa [hNone, hFull] using h.card_eq, eq_false_of_ne_true hWrite⟩, rfl⟩

theorem isEmpty_eq (h : s.Depicts m) : s.isEmpty = decide (m = ∅) := by
  rw [isEmpty, h.size_eq, Bool.eq_iff_iff, beq_iff_eq, decide_eq_true_eq, Finset.card_eq_zero]

end Depicts

/-- What a set is for those who ask it: a finite set, or closed. -/
def Shows (s : MemberSet α) : Option (Finset α) → Prop
  | none => s.closed = true ∧ s.members = []
  | some m => s.Depicts m

section

variable {s : MemberSet α} {m : Option (Finset α)}

theorem serve_closed (hClosed : s.closed = true) (hNone : s.members = []) (request : Request α) :
    (s.serve request).1 = (ideal s.options.threshold s.options.canWrite none request).1 ∧
      (s.serve request).2.options = s.options ∧ (s.serve request).2.Shows none := by
  cases request with
  | add item =>
      have hAdd : s.add item = (.error .closed, s) := by rw [MemberSet.add, if_pos hClosed]
      simp only [serve, ideal, hAdd]
      exact ⟨trivial, trivial, hClosed, hNone⟩
  | contains item => exact ⟨by simp [serve, ideal, contains, hClosed], rfl, hClosed, hNone⟩
  | any p => exact ⟨by simp [serve, ideal, any, hClosed], rfl, hClosed, hNone⟩
  | len => exact ⟨by simp [serve, ideal, size_eq, hNone], rfl, hClosed, hNone⟩
  | isEmpty => exact ⟨by simp [serve, ideal, isEmpty, size_eq, hNone], rfl, hClosed, hNone⟩
  | close => exact ⟨rfl, rfl, rfl, rfl⟩

/-- One request is answered as the finite set answers it, and leaves the set as it leaves the finite set. -/
theorem Depicts.serve {m : Finset α} (h : s.Depicts m) (request : Request α) :
    (s.serve request).1 = (ideal s.options.threshold s.options.canWrite (some m) request).1 ∧
      (s.serve request).2.options = s.options ∧
      (s.serve request).2.Shows (ideal s.options.threshold s.options.canWrite (some m) request).2 := by
  cases request with
  | add item =>
      have hAdd : s.add item = if item ∈ m then (.ok false, s) else s.store item := by
        rw [MemberSet.add_eq, if_neg (ne_true_of_eq_false h.isOpen)]
        simp only [h.mem_iff]
      by_cases hMem : item ∈ m
      · simp only [MemberSet.serve, ideal, hAdd, if_pos hMem]
        exact ⟨trivial, trivial, h⟩
      · rcases h.store hMem with ⟨hLast, hStore⟩ | ⟨hRoom, s', hStore, hOptions, hNext⟩
        · simp only [MemberSet.serve, ideal, hAdd, hStore, if_neg hMem, if_pos hLast]
          exact ⟨trivial, trivial, h⟩
        · simp only [MemberSet.serve, ideal, hAdd, hStore, if_neg hMem, if_neg hRoom]
          exact ⟨trivial, hOptions, hNext⟩
  | contains item =>
      have hAnswer : s.contains item = .ok (decide (item ∈ m)) := by
        rw [MemberSet.contains_eq h.isOpen]
        simp only [h.mem_iff]
      exact ⟨congrArg Reply.flag hAnswer, rfl, h⟩
  | any p => exact ⟨congrArg Reply.flag (h.any_eq p), rfl, h⟩
  | len => exact ⟨congrArg Reply.count h.size_eq, rfl, h⟩
  | isEmpty => exact ⟨congrArg (Reply.flag <| .ok ·) h.isEmpty_eq, rfl, h⟩
  | close => exact ⟨rfl, rfl, rfl, rfl⟩

/-- All requests are answered as the finite set answers them. -/
theorem Shows.replies_eq (h : s.Shows m) (requests : List (Bool × Request α)) :
    s.replies requests = idealReplies s.options.threshold m requests := by
  induction requests generalizing s m with
  | nil => rfl
  | cons first later ih =>
      obtain ⟨canWrite, request⟩ := first
      have hFirst : ((s.access canWrite).serve request).1 = (ideal s.options.threshold canWrite m request).1 ∧
          ((s.access canWrite).serve request).2.options = (s.access canWrite).options ∧
          ((s.access canWrite).serve request).2.Shows (ideal s.options.threshold canWrite m request).2 := by
        cases m with
        | none =>
            obtain ⟨hReply, hOptions, hNext⟩ := serve_closed (s := s.access canWrite) h.1 h.2 request
            refine ⟨hReply, hOptions, ?_⟩
            cases request <;> exact hNext
        | some m => exact (Depicts.access h canWrite).serve request
      obtain ⟨hReply, hOptions, hNext⟩ := hFirst
      rw [replies, idealReplies, hReply, ih hNext, hOptions]
      rfl

/-- A set is a finite set. Its threshold shows only in a refusal of a new item for which a file cannot be
made, and hashes do not show at all. -/
theorem replies_as_finset (options : SpillOptions) (requests : List (Bool × Request α)) :
    (new options : MemberSet α).replies requests = idealReplies options.threshold (some ∅) requests :=
  Shows.replies_eq (m := some ∅) (depicts_new options) requests

end

end

end MemberSet

end SolutionFlow
