import Mathlib.Data.List.Perm.Subperm
import SolutionFlow.Proofs.Meaning.Modifiers
import SolutionFlow.Proofs.Window.Crowd

/-! How many rows of a window get through a crowd. Each row whose number is in the window has been received,
or is about to enter the gate, or has found the gate closed; and the gate is closed by the row with the
last number, which may overtake those that took their numbers before. -/
namespace SolutionFlow.Crowd

variable {s s' : Crowd} {record : Record} {first w w' : Window} {p q r : Pusher}
  {before after : List Pusher} {passing : Passing} {row : Solution} {number : Nat} {t : Trace}
  {more : Bool} {offset limit : Option UInt64} {producers : Nat}

/-- How many pushes have not taken a number. -/
def waiting (s : Crowd) : Nat := s.pushers.countP Pusher.isWaiting

/-- How many pushes are about to enter the gate. -/
def numbered (s : Crowd) : Nat := s.pushers.countP Pusher.isNumbered

@[simp]
theorem waiting_mk : waiting ⟨w, before ++ p :: after⟩ =
    before.countP Pusher.isWaiting + after.countP Pusher.isWaiting + p.isWaiting.toNat := by
  rw [waiting, List.countP_append, List.countP_cons, ← Nat.add_assoc]
  cases p.isWaiting <;> rfl

@[simp]
theorem numbered_mk : numbered ⟨w, before ++ p :: after⟩ =
    before.countP Pusher.isNumbered + after.countP Pusher.isNumbered + p.isNumbered.toNat := by
  rw [numbered, List.countP_append, List.countP_cons, ← Nat.add_assoc]
  cases p.isNumbered <;> rfl

theorem AtRest.nobody (h : s.AtRest) : s.waiting = 0 ∧ s.numbered = 0 := by
  simp only [waiting, numbered, List.countP_eq_zero]
  exact ⟨fun p hMem => by simp [h p hMem],
    fun p hMem => by simp [h p hMem]⟩

theorem atRest_opening (offset limit : Option UInt64) (producers : Nat) :
    (opening offset limit producers).AtRest := fun _ hMem => (List.mem_replicate.mp hMem).2

theorem mem_of_mem_of_ne (h : r ∈ before ++ p :: after) (hNe : r ≠ p) : r ∈ before ++ q :: after := by
  simp only [List.mem_append, List.mem_cons] at h ⊢
  rcases h with hBefore | rfl | hAfter
  · exact .inl hBefore
  · exact absurd rfl hNe
  · exact .inr (.inr hAfter)

/-- What is received in an action, or is still to be pushed after it, was to be pushed before or is offered in
it. -/
theorem sublist_of_moves (move : p.Moves w passing w' q) :
    (passing.heard.accepted ++ q.row?.toList).Sublist (p.row?.toList ++ passing.row?.toList) := by
  cases move with
  | begin row => exact .refl _
  | leave hClosed => exact List.nil_sublist _
  | look hOpen => exact .refl _
  | skip hOutside => exact List.nil_sublist _
  | number hPast hInside => exact .refl _
  | @pass _ row number t more hSays =>
      obtain ⟨-, rfl, -⟩ | ⟨-, -, rfl, -⟩ | ⟨-, -, rfl | rfl, -⟩ := Window.says_passGate hSays
      · exact List.nil_sublist _
      · cases more with
        | true => exact .refl _
        | false => exact List.nil_sublist _
      · exact .refl _
      · exact List.nil_sublist _

/-- No row is received more often than it has been offered. -/
theorem Course.received_subperm (course : Course (opening offset limit producers) record s) :
    record.heard.accepted.Subperm record.offered := by
  have hCount (row : Solution) : record.heard.accepted.count row +
      (s.pushers.filterMap Pusher.row?).count row ≤ record.offered.count row := by
    induction course with
    | start =>
        have hNone : (List.replicate producers Pusher.resting).filterMap Pusher.row? = [] := by
          simp [List.filterMap_eq_nil_iff]
        simp [opening, Record.heard, hNone]
    | step prior last ih =>
        cases last with
        | @act w w' p q passing before after move =>
            have hMove := (sublist_of_moves move).count_le row
            have hRows (r : Pusher) : (before ++ r :: after).filterMap Pusher.row? =
                before.filterMap Pusher.row? ++ (r.row?.toList ++ after.filterMap Pusher.row?) := by
              rw [List.filterMap_append, List.filterMap_cons]
              cases r.row? <;> rfl
            simp only [hRows, Record.heard_concat, Record.offered_concat, Trace.accepted_append,
              List.count_append] at ih hMove ⊢
            omega
  exact List.subperm_ext_iff.mpr fun row _ => (Nat.le_add_right _ _).trans (hCount row)

/-- What the window, the producers and the consumer know of the pushes so far, if no row was refused. -/
structure Balanced (first : Window) (record : Record) (s : Crowd) : Prop where
  offset_eq : s.window.offset = first.offset
  last_eq : s.window.last = first.last
  counted_le : s.window.count + s.waiting ≤ record.offered.length
  counted_eq : s.window.closed = false → s.window.count + s.waiting = record.offered.length
  number_le : ∀ row number, .numbered row number ∈ s.pushers → number ≤ s.window.count
  last_le : s.window.closed = true → first.last ≤ s.window.count
  exists_last : s.window.closed = false → first.offset < first.last → first.last ≤ s.window.count →
    ∃ row, .numbered row first.last ∈ s.pushers
  balance : record.heard.accepted.length + record.missed + s.numbered =
    min s.window.count first.last - first.offset
  heard_eq : record.heard =
    record.heard.accepted.map (.row · true) ++ if s.window.closed then [.finish] else []

theorem balanced_opening (offset limit : Option UInt64) (producers : Nat) :
    (opening offset limit producers).Balanced (.ofSlice offset limit) [] := by
  obtain ⟨hWaiting, hNumbered⟩ := (atRest_opening offset limit producers).nobody
  exact {
    offset_eq := rfl
    last_eq := rfl
    counted_le := by rw [hWaiting]; exact le_rfl
    counted_eq := fun _ => by rw [hWaiting]; rfl
    number_le := fun row number hMem => by simp [opening] at hMem
    last_le := fun hClosed => by simp [opening, Window.ofSlice] at hClosed
    exists_last := fun _ hSome (hNone : (Window.ofSlice offset limit).last ≤ 0) => by omega
    balance := by
      rw [hNumbered]
      simp [opening, Window.ofSlice, Record.heard, Record.missed]
    heard_eq := rfl }

namespace Balanced

/-- An action that is not heard and leaves the window as it is, of a producer without a number. -/
theorem idle (h : Balanced first record ⟨w, before ++ p :: after⟩) (hHeard : passing.heard = [])
    (hNoMiss : passing.isMiss = false) (hP : p.isNumbered = false) (hQ : q.isNumbered = false)
    (hLe : q.isWaiting.toNat ≤ p.isWaiting.toNat + passing.row?.toList.length)
    (hOpen : w.closed = false →
      q.isWaiting.toNat = p.isWaiting.toNat + passing.row?.toList.length) :
    Balanced first (record ++ [passing]) ⟨w, before ++ q :: after⟩ := by
  have hCounted := h.counted_le
  have hBalance := h.balance
  simp only [waiting_mk, numbered_mk, hP] at hCounted hBalance
  refine ⟨h.offset_eq, h.last_eq, ?_, fun hStill => ?_, fun row number hMem => ?_, h.last_le,
    fun hStill hSome hMany => ?_, ?_, ?_⟩
  · rw [waiting_mk, Record.offered_concat, List.length_append]
    dsimp only
    omega
  · have hExact := h.counted_eq hStill
    have hSame := hOpen hStill
    rw [waiting_mk] at hExact ⊢
    rw [Record.offered_concat, List.length_append]
    dsimp only at hExact ⊢
    omega
  · refine h.number_le row number (mem_of_mem_of_ne hMem ?_)
    rintro rfl
    simp at hQ
  · obtain ⟨row, hMem⟩ := h.exists_last hStill hSome hMany
    refine ⟨row, mem_of_mem_of_ne hMem ?_⟩
    rintro rfl
    simp at hP
  · rw [Record.heard_concat, Record.missed_concat, numbered_mk, hHeard, hNoMiss, hQ, List.append_nil]
    exact hBalance
  · rw [Record.heard_concat, hHeard, List.append_nil]
    exact h.heard_eq

/-- A row takes its number. It goes on only if the number is in the window. -/
theorem count (h : Balanced first record ⟨w, before ++ .counting row :: after⟩)
    (hMany : record.offered.length ≤ maxCount)
    (hNext : q = .resting ∧ (w.nextNumber ≤ w.offset ∨ w.last < w.nextNumber) ∨
      q = .numbered row w.nextNumber ∧ w.offset < w.nextNumber ∧ w.nextNumber ≤ w.last) :
    Balanced first (record ++ [.inner])
      ⟨{ w with count := w.nextNumber }, before ++ q :: after⟩ := by
  have hCounted := h.counted_le
  have hBalance := h.balance
  simp only [waiting_mk, numbered_mk, Pusher.isWaiting, Pusher.isNumbered, Bool.toNat_true,
    Bool.toNat_false] at hCounted hBalance
  have hNumber : w.nextNumber = w.count + 1 := Window.nextNumber_eq (by omega)
  rw [hNumber, show w.offset = first.offset from h.offset_eq, show w.last = first.last from h.last_eq]
    at hNext
  have hQ : q.isWaiting = false := by rcases hNext with ⟨rfl, -⟩ | ⟨rfl, -⟩ <;> rfl
  refine ⟨h.offset_eq, h.last_eq, ?_, fun hStill => ?_, fun other number hMem => ?_, fun hClosed => ?_,
    fun hStill hSome hPast => ?_, ?_, ?_⟩
  · rw [waiting_mk, hQ, hNumber]
    simp
    omega
  · have hExact := h.counted_eq hStill
    rw [waiting_mk] at hExact ⊢
    rw [hQ, hNumber]
    simp at hExact ⊢
    omega
  · have hOld (hNe : .numbered other number ≠ q) : number ≤ w.count :=
      h.number_le other number (mem_of_mem_of_ne hMem hNe)
    dsimp only
    rw [hNumber]
    rcases hNext with ⟨rfl, -⟩ | ⟨rfl, -⟩
    · exact (hOld (by simp)).trans (Nat.le_succ _)
    · by_cases hEq : number = w.count + 1
      · exact hEq.le
      · exact (hOld (by simp [hEq])).trans (Nat.le_succ _)
  · have hBefore := h.last_le hClosed
    dsimp only at hBefore ⊢
    omega
  · dsimp only at hPast
    by_cases hBefore : first.last ≤ w.count
    · obtain ⟨other, hMem⟩ := h.exists_last hStill hSome hBefore
      exact ⟨other, mem_of_mem_of_ne hMem (by simp)⟩
    · rcases hNext with ⟨-, hOutside⟩ | ⟨rfl, -⟩
      · omega
      · have hIsLast : first.last = w.count + 1 := by omega
        exact ⟨row, by simp [hIsLast]⟩
  · rcases hNext with ⟨rfl, hOutside⟩ | ⟨rfl, hInside⟩
    · simp [hNumber]
      omega
    · simp [hNumber]
      omega
  · simpa using h.heard_eq

/-- A row finds the gate closed, or it is received; with the last one the gate is closed. -/
theorem pass (h : Balanced first record ⟨w, before ++ .numbered row number :: after⟩)
    (hSays : (w.passGate row number).Says t (more, w')) (hPatient : t.refused = false) :
    Balanced first (record ++ [.passed t]) ⟨w', before ++ .resting :: after⟩ := by
  have hCounted := h.counted_le
  have hBalance := h.balance
  have hHeard := h.heard_eq
  simp only [waiting_mk, numbered_mk, Pusher.isWaiting, Pusher.isNumbered, Bool.toNat_true,
    Bool.toNat_false] at hCounted hBalance
  have hOld : ∀ other n, .numbered other n ∈ before ++ .resting :: after → n ≤ w.count :=
    fun other n hMem => h.number_le other n (mem_of_mem_of_ne hMem (by simp))
  have hLastEq : w.last = first.last := h.last_eq
  obtain ⟨hClosed, rfl, rfl⟩ | ⟨hOpen, hInside, rfl, rfl⟩ | ⟨hOpen, hLast, rfl | rfl, rfl⟩ :=
    Window.says_passGate hSays
  · refine ⟨h.offset_eq, h.last_eq, by simpa using hCounted, fun hStill => ?_, hOld, h.last_le,
      fun hStill => ?_, ?_, by simpa using hHeard⟩
    · simp [hClosed] at hStill
    · simp [hClosed] at hStill
    · simp
      omega
  · obtain rfl : more = true := by simpa using hPatient
    refine ⟨h.offset_eq, h.last_eq, by simpa using hCounted, fun _ => ?_, hOld, by simp,
      fun _ hSome hMany => ?_, ?_, ?_⟩
    · simpa using h.counted_eq hOpen
    · obtain ⟨other, hMem⟩ := h.exists_last hOpen hSome hMany
      refine ⟨other, mem_of_mem_of_ne hMem ?_⟩
      simp only [ne_eq, Pusher.numbered.injEq, not_and]
      omega
    · simp
      omega
    · rw [hOpen] at hHeard
      simpa using hHeard
  · have hNumber : number ≤ w.count := h.number_le row number (by simp)
    refine ⟨h.offset_eq, h.last_eq, by simpa using hCounted, by simp, hOld, fun _ => ?_, by simp, ?_, ?_⟩
    · dsimp only
      omega
    · simp
      omega
    · rw [hOpen] at hHeard
      simpa using hHeard
  · simp at hPatient

/-- An action keeps the balance. -/
theorem step (h : s.Balanced first record) (last : Step s passing s')
    (hPatient : passing.heard.refused = false) (hMany : record.offered.length ≤ maxCount) :
    s'.Balanced first (record ++ [passing]) := by
  cases last with
  | act before after move =>
      cases move with
      | begin row => exact h.idle rfl rfl rfl rfl le_rfl fun _ => rfl
      | leave hClosed =>
          exact h.idle rfl rfl rfl rfl (Nat.zero_le _) fun hOpen => by simp [hClosed] at hOpen
      | look hOpen => exact h.idle rfl rfl rfl rfl le_rfl fun _ => rfl
      | skip hOutside => exact h.count hMany (.inl ⟨rfl, hOutside⟩)
      | number hPast hInside => exact h.count hMany (.inr ⟨rfl, hPast, hInside⟩)
      | pass hSays => exact h.pass hSays hPatient

end Balanced

/-- So does any number of actions. -/
theorem Course.balanced (course : Course (opening offset limit producers) record s)
    (hPatient : record.heard.refused = false) (hMany : record.offered.length ≤ maxCount) :
    s.Balanced (.ofSlice offset limit) record := by
  induction course with
  | start => exact balanced_opening offset limit producers
  | step prior last ih =>
      rw [Record.heard_concat, Trace.refused_append, Bool.or_eq_false_iff] at hPatient
      rw [Record.offered_concat, List.length_append] at hMany
      exact (ih hPatient.1 (by omega)).step last hPatient.2 (by omega)

/-- How many of so many rows a slice lets through. -/
def quota (offset limit : Option UInt64) (given : Nat) : Nat :=
  let rest := given - (offset.getD 0).toNat
  match limit with
  | none => rest
  | some limit => min limit.toNat rest

theorem min_last_sub_offset (offset limit : Option UInt64) {given : Nat} (h : given ≤ maxCount) :
    min given (Window.ofSlice offset limit).last - (Window.ofSlice offset limit).offset =
      quota offset limit given := by
  cases limit with
  | none =>
      simp only [Window.ofSlice, quota]
      omega
  | some limit =>
      simp only [Window.ofSlice, quota, addCapped]
      omega

/-- A slice that several producers push rows to, and whose consumer refuses none, delivers rows that were
pushed and then one end. The rows that it delivers are as many as the slice is to let through, less those
that had a number in the window and found the gate closed. -/
theorem Course.delivers_quota_less_missed (course : Course (opening offset limit producers) record s)
    (hReturned : s.AtRest) (hPatient : record.heard.refused = false)
    (hMany : record.offered.length ≤ maxCount) {ending : Trace}
    (hEnd : s.window.onFinish.Says ending w) :
    ∃ rows : List Solution, record.heard ++ ending = rows.map (.row · true) ++ [.finish] ∧
      rows.Subperm record.offered ∧
      rows.length + record.missed = quota offset limit record.offered.length := by
  have hBalanced := course.balanced hPatient hMany
  obtain ⟨hWaiting, hNumbered⟩ := hReturned.nobody
  have hCounted := hBalanced.counted_le
  have hBalance := hBalanced.balance
  have hHeard := hBalanced.heard_eq
  refine ⟨record.heard.accepted, ?_, course.received_subperm, ?_⟩
  · obtain ⟨-, ⟨hClosed, rfl⟩ | ⟨hOpen, rfl⟩⟩ := Window.says_onFinish hEnd
    · simpa [hClosed] using hHeard
    · simpa [hOpen] using hHeard
  · rw [← min_last_sub_offset offset limit hMany]
    by_cases hClosed : s.window.closed = true
    · have hLast := hBalanced.last_le hClosed
      omega
    · have hExact := hBalanced.counted_eq (by simpa using hClosed)
      omega

/-- A producer alone pushes a row, which is the only one of its window. -/
theorem Course.delivers_quota_alone :
    let row : Solution := .ofList [("x", .integer 1)]
    ∃ record s, Course (opening none (some 1) 1) record s ∧ s.AtRest ∧ record.offered = [row] ∧
      record.missed = 0 ∧ ∃ rows : List Solution,
        record.heard ++ [] = rows.map (.row · true) ++ [.finish] ∧ rows.Subperm record.offered ∧
        rows.length + record.missed = quota none (some 1) 1 := by
  intro row
  let full : Window := ⟨0, 1, 1, true⟩
  have hSays : ((Window.ofSlice none (some 1)).onRow row).Says [.row row true, .finish] (false, full) :=
    ⟨true, [.finish], rfl, [], rfl, rfl, rfl⟩
  obtain ⟨record, hCourse, hHeard, hOffered, hMissed⟩ := course_of_onRow hSays [] []
  have course : Course (opening none (some 1) 1) record ⟨full, [.resting]⟩ := hCourse
  have hReturned : AtRest ⟨full, [.resting]⟩ := by simp [AtRest]
  have hPatient : record.heard.refused = false := by rw [hHeard]; rfl
  have hMany : record.offered.length ≤ maxCount := by rw [hOffered]; decide
  have hEnd : full.onFinish.Says [] full := ⟨rfl, rfl⟩
  obtain ⟨rows, hRows, hOwn, hQuota⟩ := delivers_quota_less_missed course hReturned hPatient hMany hEnd
  rw [hOffered] at hQuota
  exact ⟨record, _, course, hReturned, hOffered, hMissed, rows, hRows, hOwn, hQuota⟩

/-- Of two rows of a window with room for two, the consumer receives one: the first row takes its number, and
the second one enters the gate before it. -/
theorem Course.straggler_missed :
    let a : Solution := .ofList [("x", .integer 1)]
    let b : Solution := .ofList [("x", .integer 2)]
    ∃ record s, Course (opening none (some 2) 2) record s ∧ s.AtRest ∧ record.offered = [a, b] ∧
      record.heard = [.row b true, .finish] ∧ s.window.onFinish.Says [] s.window ∧
      quota none (some 2) record.offered.length = 2 := by
  intro a b
  let w (count : Nat) (closed : Bool) : Window := ⟨0, 2, count, closed⟩
  have hBegun : Course (opening none (some 2) 2) [.offered a, .offered b]
      ⟨w 0 false, [.looking a, .looking b]⟩ :=
    .step (.step .start (.act [] [.resting] (.begin a))) (.act [.looking a] [] (.begin b))
  have hLooked : Course (opening none (some 2) 2) [.offered a, .offered b, .inner, .inner]
      ⟨w 0 false, [.counting a, .counting b]⟩ :=
    .step (.step hBegun (.act [] [.looking b] (.look rfl))) (.act [.counting a] [] (.look rfl))
  have hCounted : Course (opening none (some 2) 2)
      [.offered a, .offered b, .inner, .inner, .inner, .inner]
      ⟨w 2 false, [.numbered a 1, .numbered b 2]⟩ :=
    .step (.step hLooked (.act [] [.counting b] (.number (by decide) (by decide))))
      (.act [.numbered a 1] [] (.number (by decide) (by decide)))
  have hSecond : ((w 2 false).passGate b 2).Says [.row b true, .finish] (false, w 2 true) :=
    ⟨true, [.finish], rfl, [], rfl, rfl, rfl⟩
  have hFirst : ((w 2 true).passGate a 1).Says [] (false, w 2 true) := ⟨rfl, rfl⟩
  have hPassed : Course (opening none (some 2) 2)
      [.offered a, .offered b, .inner, .inner, .inner, .inner, .passed [.row b true, .finish], .passed []]
      ⟨w 2 true, [.resting, .resting]⟩ :=
    .step (.step hCounted (.act [.numbered a 1] [] (.pass hSecond))) (.act [] [.resting] (.pass hFirst))
  exact ⟨_, _, hPassed, by simp [AtRest], rfl, rfl, ⟨rfl, rfl⟩, rfl⟩

end SolutionFlow.Crowd
