import SolutionFlow.Flow.Operator.Window
import SolutionFlow.Proofs.Flow.Trace

/-! Windows that several producers push rows to at the same time. A push looks whether the window is closed,
takes a number for its row, and hands the row on in the gate, which lets nobody else act meanwhile;
between these actions anybody else may act. A course is any order of such actions. -/
namespace SolutionFlow

/-- Where a producer stands. It is between two pushes; or it has a row, and is about to look whether the
window is closed, to take a number, or to enter the gate with its number. -/
inductive Pusher where
  | resting
  | looking (row : Solution)
  | counting (row : Solution)
  | numbered (row : Solution) (number : Nat)

/-- What can be told of an action of a producer: that it begins to push a row, and what the consumer hears
when it passes the gate. -/
inductive Passing where
  | inner
  | offered (row : Solution)
  | passed (heard : Trace)

namespace Window

variable {w w' : Window} {row : Solution} {number : Nat} {t : Trace} {more : Bool}

/-- What is done in the gate about a row whose number is in the window. -/
def passGate (w : Window) (row : Solution) (number : Nat) : Emission (Bool × Window) :=
  if w.closed then return (false, w)
  else if number < w.last then do
    let more ← Emission.push row
    return (more, { w with closed := !more })
  else do
    if ← Emission.push row then Emission.finished
    return (false, { w with closed := true })

/-- A row that nobody overtakes passes the gate with the number that it has just taken. -/
theorem onRow_eq_passGate (w : Window) (row : Solution) :
    w.onRow row =
      if w.closed then return (false, w)
      else if w.nextNumber ≤ w.offset then return (true, { w with count := w.nextNumber })
      else if w.nextNumber ≤ w.last then
        passGate { w with count := w.nextNumber } row w.nextNumber
      else return (false, { w with count := w.nextNumber }) := by
  unfold onRow passGate
  by_cases hClosed : w.closed = true
  · simp only [hClosed, if_true]
  · rw [if_neg hClosed, if_neg hClosed, if_neg hClosed]
    dsimp only
    refine ite_congr rfl (fun _ => rfl) fun _ => ?_
    rcases Nat.lt_trichotomy w.nextNumber w.last with hInside | hLast | hBeyond
    · rw [if_pos hInside, if_pos (Nat.le_of_lt hInside), if_pos hInside]
    · have hNotInside : ¬w.nextNumber < w.last := Nat.not_lt_of_ge (Nat.le_of_eq hLast.symm)
      rw [if_neg hNotInside, if_pos hLast, if_pos (Nat.le_of_eq hLast), if_neg hNotInside]
    · rw [if_neg (Nat.lt_asymm hBeyond), if_neg (Nat.ne_of_gt hBeyond), if_neg (Nat.not_le_of_lt hBeyond)]

/-- A closed gate turns a row away. Else the row is handed on, and with the last one the end. -/
theorem says_passGate (h : (w.passGate row number).Says t (more, w')) :
    (w.closed = true ∧ t = [] ∧ w' = w) ∨
    (w.closed = false ∧ number < w.last ∧ t = [.row row more] ∧ w' = { w with closed := !more }) ∨
    (w.closed = false ∧ w.last ≤ number ∧ (t = [.row row true, .finish] ∨ t = [.row row false]) ∧
      w' = { w with closed := true }) := by
  unfold passGate at h
  split at h
  next hClosed =>
    obtain ⟨rfl, hEq⟩ := h
    exact .inl ⟨hClosed, rfl, (Prod.mk.inj hEq).2⟩
  next hOpen =>
    rw [Bool.not_eq_true] at hOpen
    right
    split at h
    next hInside =>
      simp only [bind_pure_comp, Emission.says_map, Emission.says_push, Prod.mk.injEq] at h
      obtain ⟨_, rfl, rfl, rfl⟩ := h
      exact .inl ⟨hOpen, hInside, rfl, rfl⟩
    next hLast =>
      obtain ⟨t₁, reply, t₂, hPush, hRest, rfl⟩ := Emission.says_bind.mp h
      obtain rfl := Emission.says_push.mp hPush
      refine .inr ⟨hOpen, Nat.le_of_not_lt hLast, ?_⟩
      cases reply with
      | true =>
          simp only [↓reduceIte, bind_pure_comp, Emission.says_map, Emission.says_finished,
            Prod.mk.injEq] at hRest
          obtain ⟨_, rfl, -, rfl⟩ := hRest
          exact ⟨.inl rfl, rfl⟩
      | false =>
          simp only [Bool.false_eq_true, ↓reduceIte, Emission.says_pure, Prod.mk.injEq] at hRest
          obtain ⟨rfl, -, rfl⟩ := hRest
          exact ⟨.inr rfl, rfl⟩

end Window

namespace Pusher

/-- The actions of a producer on a window. -/
inductive Moves : Window → Pusher → Passing → Window → Pusher → Prop where
  | begin {w : Window} (row : Solution) : Moves w .resting (.offered row) w (.looking row)
  | leave {w : Window} {row : Solution} (hClosed : w.closed = true) :
      Moves w (.looking row) .inner w .resting
  | look {w : Window} {row : Solution} (hOpen : w.closed = false) :
      Moves w (.looking row) .inner w (.counting row)
  | skip {w : Window} {row : Solution} (hOutside : w.nextNumber ≤ w.offset ∨ w.last < w.nextNumber) :
      Moves w (.counting row) .inner { w with count := w.nextNumber } .resting
  | number {w : Window} {row : Solution} (hPast : w.offset < w.nextNumber)
      (hInside : w.nextNumber ≤ w.last) :
      Moves w (.counting row) .inner { w with count := w.nextNumber } (.numbered row w.nextNumber)
  | pass {w w' : Window} {row : Solution} {number : Nat} {t : Trace} {more : Bool}
      (hSays : (w.passGate row number).Says t (more, w')) :
      Moves w (.numbered row number) (.passed t) w' .resting

def isWaiting : Pusher → Bool
  | .looking _ | .counting _ => true
  | _ => false

def isNumbered : Pusher → Bool
  | .numbered _ _ => true
  | _ => false

/-- The row that a producer is pushing. -/
def row? : Pusher → Option Solution
  | .resting => none
  | .looking row | .counting row | .numbered row _ => some row

end Pusher

attribute [simp] Pusher.isWaiting Pusher.isNumbered Pusher.row?

/-- A window with all who push rows to it. -/
structure Crowd where
  window : Window
  pushers : List Pusher

namespace Passing

/-- What the consumer hears of an action. -/
def heard : Passing → Trace
  | .passed t => t
  | _ => []

/-- The row of a push that begins. -/
def row? : Passing → Option Solution
  | .offered row => some row
  | _ => none

/-- Whether a row with a number in the window finds the gate closed. -/
def isMiss : Passing → Bool
  | .passed [] => true
  | _ => false

end Passing

attribute [simp] Passing.heard Passing.row? Passing.isMiss

namespace Crowd

/-- The actions that have been taken, in order. -/
abbrev Record := List Passing

namespace Record

/-- All that the consumer has heard. -/
def heard (h : Record) : Trace := h.flatMap Passing.heard

/-- The rows that have been pushed, in the order in which their pushes have begun. -/
def offered (h : Record) : List Solution := h.filterMap Passing.row?

/-- How many rows with a number in the window have found the gate closed. -/
def missed (h : Record) : Nat := h.countP Passing.isMiss

variable (h : Record) (p : Passing)

@[simp]
theorem heard_concat : heard (h ++ [p]) = h.heard ++ p.heard := by simp [heard]

@[simp]
theorem offered_concat : offered (h ++ [p]) = h.offered ++ p.row?.toList := by
  rw [offered, List.filterMap_append, List.filterMap_cons]
  cases p.row? <;> rfl

@[simp]
theorem missed_concat : missed (h ++ [p]) = h.missed + p.isMiss.toNat := by
  rw [missed, List.countP_append, List.countP_singleton]
  cases p.isMiss <;> rfl

end Record

/-- A new window, and so many producers that push nothing so far. -/
def opening (offset limit : Option UInt64) (producers : Nat) : Crowd :=
  ⟨.ofSlice offset limit, .replicate producers .resting⟩

/-- All pushes have returned. -/
def AtRest (s : Crowd) : Prop := ∀ p ∈ s.pushers, p = .resting

inductive Step : Crowd → Passing → Crowd → Prop where
  | act {w w' : Window} {p q : Pusher} {passing : Passing} (before after : List Pusher)
      (move : p.Moves w passing w' q) :
      Step ⟨w, before ++ p :: after⟩ passing ⟨w', before ++ q :: after⟩

/-- Any number of actions, one after another. -/
inductive Course (start : Crowd) : Record → Crowd → Prop where
  | start : Course start [] start
  | step {h : Record} {s s' : Crowd} {passing : Passing} (prior : Course start h s)
      (last : Step s passing s') : Course start (h ++ [passing]) s'

/-- A push during which nobody else acts does to the window, and tells the consumer, what a row does that is
answered in one go. -/
theorem course_of_onRow {w w' : Window} {row : Solution} {t : Trace} {more : Bool}
    (hSays : (w.onRow row).Says t (more, w')) (before after : List Pusher) :
    ∃ h, Course ⟨w, before ++ .resting :: after⟩ h ⟨w', before ++ .resting :: after⟩ ∧
      h.heard = t ∧ h.offered = [row] ∧ h.missed = 0 := by
  have hBegun : Course ⟨w, before ++ .resting :: after⟩ _ ⟨w, before ++ .looking row :: after⟩ :=
    Course.start.step (.act before after (.begin row))
  rw [Window.onRow_eq_passGate] at hSays
  split at hSays
  next hClosed =>
    obtain ⟨rfl, hEq⟩ := hSays
    obtain ⟨-, rfl⟩ := Prod.mk.inj hEq
    exact ⟨_, hBegun.step (.act before after (.leave hClosed)), rfl, rfl, rfl⟩
  next hOpen =>
    rw [Bool.not_eq_true] at hOpen
    have hLooked := hBegun.step (.act before after (.look hOpen))
    split at hSays
    next hBefore =>
      obtain ⟨rfl, hEq⟩ := hSays
      obtain ⟨-, rfl⟩ := Prod.mk.inj hEq
      exact ⟨_, hLooked.step (.act before after (.skip (.inl hBefore))), rfl, rfl, rfl⟩
    next hPast =>
      split at hSays
      next hInside =>
        have hPassed := (hLooked.step (.act before after (.number (Nat.lt_of_not_le hPast) hInside))).step
          (.act before after (.pass hSays))
        refine ⟨_, hPassed, by simp [Record.heard, Passing.heard], rfl, ?_⟩
        obtain ⟨hClosed, -⟩ | ⟨-, -, rfl, -⟩ | ⟨-, -, rfl | rfl, -⟩ := Window.says_passGate hSays
        · simp [hOpen] at hClosed
        all_goals rfl
      next hBeyond =>
        obtain ⟨rfl, hEq⟩ := hSays
        obtain ⟨-, rfl⟩ := Prod.mk.inj hEq
        exact ⟨_, hLooked.step (.act before after (.skip (.inr (Nat.lt_of_not_le hBeyond)))), rfl, rfl, rfl⟩

end Crowd

end SolutionFlow
