import Mathlib.Data.Option.Basic
import SolutionFlow.Proofs.Flow.Likeness

/-! Reading queries that are alike. Whoever reads from a process that is like another one gets the same rows
and failures at the same times. -/
namespace SolutionFlow

variable {env : Environment}

/-- Two emissions have come equally far, and what is left goes alike. -/
def Playing.Matches {α β : Type} (R : α → β → Prop) : Playing α → Playing β → Prop
  | .ended v, .ended w => R v w
  | .blocked rest, .blocked rest' => rest.Matches R rest'
  | _, _ => False

/-- Emissions that go alike come equally far, and leave the bridge and the clock as each other. -/
theorem Bridge.play_matches {α β : Type} {R : α → β → Prop} {e : Emission α} {e' : Emission β}
    (h : e.Matches R e') (b : Bridge) (clock : Clock) :
    (b.play clock e).1.Matches R (b.play clock e').1 ∧
      (b.play clock e).2 = (b.play clock e').2 := by
  induction h generalizing b clock with
  | done h => exact ⟨h, rfl⟩
  | emit h ih =>
      simp only [Bridge.play]
      split
      · exact ih false b clock
      split
      · exact ih true _ clock
      · exact ⟨.emit h, rfl⟩
  | finish h ih =>
      simp only [Bridge.play]
      split
      · exact ih b clock
      split
      · exact ih _ clock
      · exact ⟨.finish h, rfl⟩
  | fail _ ih => exact ih _ clock
  | probe _ ih => exact ih _ b clock
  | consult _ ih => exact ih clock b clock
  | adjust _ ih => exact ih b _
  | pardon h => exact h.elim

namespace Cursor

variable {c d : Cursor}

/-- Two cursors differ at most in their queries under way, and these are alike. -/
def Alike (env : Environment) (c d : Cursor) : Prop :=
  ∃ activity, d = { c with activity := activity } ∧
    c.activity.Matches (Process.Alike env) activity

theorem Alike.play (h : Alike env c d) {e e' : Emission Process}
    (hEmission : e.Matches (Process.Alike env) e') (time : Nat) :
    Alike env (c.play time e) (d.play time e') := by
  obtain ⟨activity, rfl, -⟩ := h
  obtain ⟨hActivity, hRest⟩ := Bridge.play_matches hEmission c.bridge { c.clock with time := time }
  refine ⟨_, ?_, hActivity⟩
  simp only [Cursor.play, hRest]

theorem Alike.waitUntil (h : Alike env c d) (time : Nat) :
    Alike env (c.waitUntil time) (d.waitUntil time) := by
  obtain ⟨activity, rfl, hActivity⟩ := h
  exact ⟨activity, rfl, hActivity⟩

/-- Both queries move in the same way, or neither can. -/
theorem Alike.advance (h : Alike env c d) :
    Option.Rel (Alike env) (c.advance env) (d.advance env) := by
  obtain ⟨activity, rfl, hActivity⟩ := id h
  unfold Cursor.advance
  cases hFirst : c.activity with
  | blocked rest =>
      cases activity with
      | blocked rest' =>
          rw [hFirst] at hActivity
          exact .some (h.play hActivity _)
      | ended q => simp [hFirst, Playing.Matches] at hActivity
  | ended p =>
      cases activity with
      | blocked rest' => simp [hFirst, Playing.Matches] at hActivity
      | ended q =>
          have hProcess : Process.Alike env p q := by simpa [hFirst, Playing.Matches] using hActivity
          simp only [hProcess.earliest_eq]
          cases q.earliest with
          | none =>
              cases c.deadline.passed? with
              | none => exact .none
              | some time => exact .some (h.waitUntil time)
          | some appointment =>
              dsimp only
              have hOverrun : ({ c with activity := .ended q }.waitUntil appointment.time).overrun? =
                  (c.waitUntil appointment.time).overrun? := rfl
              rw [hOverrun]
              split
              · exact .some (h.waitUntil appointment.time)
              · exact .some (h.play (hProcess.deliver _) _)

theorem Alike.look (h : Alike env c d) :
    Option.Rel (fun a b => a.1 = b.1 ∧ Alike env a.2 b.2) (c.look env) (d.look env) := by
  have hMoved := h.advance
  obtain ⟨activity, rfl, hActivity⟩ := h
  unfold Cursor.look
  dsimp only
  split
  · exact .some ⟨rfl, activity, rfl, hActivity⟩
  · generalize c.advance env = moved, { c with activity := activity }.advance env = moved' at hMoved
    cases hMoved with
    | none => exact .none
    | some hNext =>
        obtain ⟨later, rfl, hLater⟩ := hNext
        exact .some ⟨rfl, later, rfl, hLater⟩

theorem Alike.next (h : Alike env c d) (patience : Nat) :
    (c.next env patience).1 = (d.next env patience).1 ∧
      Alike env (c.next env patience).2 (d.next env patience).2 := by
  induction patience generalizing c d with
  | zero => exact ⟨rfl, h⟩
  | succ patience ih =>
      have hLook := h.look
      have hFinished : c.bridge.finished = d.bridge.finished := by
        obtain ⟨activity, rfl, -⟩ := h
        rfl
      simp only [Cursor.next, hFinished]
      split
      · exact ⟨rfl, h⟩
      generalize c.look env = found, d.look env = found' at hLook
      cases hLook with
      | none => exact ⟨rfl, h⟩
      | @some a b hNext =>
          obtain ⟨outcome, c'⟩ := a
          obtain ⟨_, d'⟩ := b
          obtain ⟨rfl, hNext⟩ := hNext
          cases outcome with
          | row row => exact ⟨rfl, hNext⟩
          | failed error => exact ⟨rfl, hNext⟩
          | ended => exact ⟨rfl, hNext⟩
          | again => exact ih hNext

theorem Alike.collect (h : Alike env c d) (patience count : Nat) (found : List Item) :
    (c.collect env patience count found).1 = (d.collect env patience count found).1 ∧
      Alike env (c.collect env patience count found).2 (d.collect env patience count found).2 := by
  induction count generalizing c d found with
  | zero => exact ⟨rfl, h⟩
  | succ count ih =>
      obtain ⟨hItem, hNext⟩ := h.next patience
      simp only [Cursor.collect]
      rcases hC : c.next env patience with ⟨item, c'⟩
      rcases hD : d.next env patience with ⟨item', d'⟩
      rw [hC, hD] at hItem hNext
      obtain rfl : item = item' := hItem
      cases item with
      | none => exact ⟨rfl, hNext⟩
      | some item => exact ih hNext _

/-- All that is read is the same, and so is the time when it has been read. -/
theorem Alike.rest_eq (h : Alike env c d) (patience : Nat) :
    (c.rest env patience).1 = (d.rest env patience).1 ∧
      (c.rest env patience).2.clock = (d.rest env patience).2.clock := by
  obtain ⟨hItems, activity, hLast, -⟩ := h.collect patience patience []
  exact ⟨hItems, (congrArg Cursor.clock hLast).symm⟩

end Cursor

/-- Queries whose plans start alike are alike. -/
theorem Evaluation.launch_alike (e : Evaluation) {plan : Plan} {seed : Solution} {scope scope' : Scope}
    (h : (plan.start env seed scope).Matches (Process.Alike env) (plan.start env seed scope'))
    (clock : Clock) :
    (e.launch env plan seed scope clock).Alike env (e.launch env plan seed scope' clock) := by
  obtain ⟨hActivity, hRest⟩ := Bridge.play_matches h (.new e.queueCapacity) clock
  refine ⟨_, ?_, hActivity⟩
  simp only [launch, launchOn, hRest]

end SolutionFlow
