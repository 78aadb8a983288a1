import SolutionFlow.Evaluation
import SolutionFlow.Proofs.Flow.Ensures

/-! What is read from a query row by row. Whatever waits in the queue has been handed over by the process
behind it, so that all rows that are read are rows that the process hands over. -/
namespace SolutionFlow

variable {env : Environment} {P : Solution → Prop}

/-- An emission under way has left behind what `Q` says, or it will. -/
def Playing.Holds {α : Type} (P : Solution → Prop) (Q : α → Prop) : Playing α → Prop
  | .ended value => Q value
  | .blocked rest => rest.Ensures P Q

namespace Bridge

/-- All rows that wait fulfil `P`. -/
def Holds (P : Solution → Prop) (b : Bridge) : Prop := ∀ row, .row row ∈ b.queue → P row

theorem holds_new (capacity : Nat) : (new capacity).Holds P := by simp [Holds, new]

theorem holds_close (b : Bridge) : b.close.Holds P := by simp [Holds, close]

theorem Holds.enqueue {b : Bridge} (h : b.Holds P) {d : Delivery}
    (hDelivery : ∀ row, d = .row row → P row) : (b.enqueue d).Holds P := by
  intro row hMem
  rcases List.mem_append.mp hMem with hOld | hNew
  · exact h row hOld
  · exact hDelivery row (List.mem_singleton.mp hNew).symm

theorem Holds.fail {b : Bridge} (h : b.Holds P) (error : QueryError) : (b.fail error).Holds P := by
  have hNoted : (b.note error).Holds P := by
    unfold note
    split <;> exact h
  unfold Bridge.fail wake
  split
  · exact Holds.enqueue hNoted (by simp)
  · exact hNoted

/-- Playing an emission puts only its own rows into the queue. -/
theorem Holds.play {α : Type} {Q : α → Prop} {b : Bridge} (h : b.Holds P) {e : Emission α}
    (hEmission : e.Ensures P Q) (clock : Clock) :
    (b.play clock e).1.Holds P Q ∧ (b.play clock e).2.1.Holds P := by
  induction e generalizing b clock with
  | done value => exact ⟨hEmission, h⟩
  | emit row next ih =>
      rw [Bridge.play]
      split
      · exact ih false h (hEmission.2 false) clock
      split
      · exact ih true (h.enqueue fun _ hEq => Delivery.row.inj hEq ▸ hEmission.1)
          (hEmission.2 true) clock
      · exact ⟨hEmission, h⟩
  | finish next ih =>
      rw [Bridge.play]
      split
      · exact ih h hEmission clock
      split
      · exact ih (h.enqueue (by simp)) hEmission clock
      · exact ⟨hEmission, h⟩
  | fail error next ih => exact ih (h.fail error) hEmission clock
  | probe next ih => exact ih b.isClosed h (hEmission b.isClosed) clock
  | consult next ih => exact ih clock h (hEmission clock) clock
  | adjust later next ih => exact ih h hEmission later

theorem Holds.takeError {b : Bridge} (h : b.Holds P) : b.takeError.2.Holds P := by
  unfold Bridge.takeError
  split <;> exact h

/-- A row that is taken for one is the delivery. -/
theorem Holds.settle {b : Bridge} (h : b.Holds P) {received : Option Delivery}
    (hReceived : ∀ row, received = some (.row row) → P row) (overrun : Option Overrun) :
    (∀ row, (b.settle received overrun).1 = .row row → P row) ∧
      (b.settle received overrun).2.Holds P := by
  have hTaken := h.takeError
  unfold Bridge.settle
  split
  · exact ⟨by simp, holds_close _⟩
  · exact ⟨by simp, holds_close _⟩
  next hError =>
    rw [hError] at hTaken
    split
    next row => exact ⟨fun _ hEq => Outcome.row.inj hEq ▸ hReceived row rfl, hTaken⟩
    next => exact ⟨by simp, holds_close _⟩
    all_goals exact ⟨by simp, hTaken⟩

end Bridge

namespace Cursor

/-- All rows that wait, and all that will come, fulfil `P`. -/
def Holds (env : Environment) (P : Solution → Prop) (c : Cursor) : Prop :=
  c.bridge.Holds P ∧ c.activity.Holds P (Process.Emits env P)

variable {c : Cursor}

theorem Holds.play (h : c.Holds env P) {e : Emission Process}
    (hEmission : e.Ensures P (Process.Emits env P)) (time : Nat) : (c.play time e).Holds env P := by
  obtain ⟨hActivity, hBridge⟩ := h.1.play hEmission { c.clock with time := time }
  exact ⟨hBridge, hActivity⟩

theorem Holds.advance (h : c.Holds env P) {c' : Cursor} (hAdvance : c.advance env = some c') :
    c'.Holds env P := by
  obtain ⟨hBridge, hActivity⟩ := h
  unfold Cursor.advance at hAdvance
  split at hAdvance
  next rest hBlocked =>
    rw [hBlocked] at hActivity
    rw [← Option.some.inj hAdvance]
    exact Holds.play ⟨hBridge, by rwa [hBlocked]⟩ hActivity _
  next process hEnded =>
    rw [hEnded] at hActivity
    split at hAdvance
    next =>
      obtain ⟨time, -, rfl⟩ := Option.map_eq_some_iff.mp hAdvance
      exact ⟨hBridge, by simpa [waitUntil, hEnded] using hActivity⟩
    next appointment _ =>
      dsimp only at hAdvance
      split at hAdvance
      · rw [← Option.some.inj hAdvance]
        exact ⟨hBridge, by simpa [waitUntil, hEnded] using hActivity⟩
      · rw [← Option.some.inj hAdvance]
        exact Holds.play ⟨hBridge, by rwa [hEnded]⟩ (hActivity.deliver _) _

theorem Holds.look (h : c.Holds env P) {outcome : Bridge.Outcome} {c' : Cursor}
    (hLook : c.look env = some (outcome, c')) :
    (∀ row, outcome = .row row → P row) ∧ c'.Holds env P := by
  unfold Cursor.look at hLook
  split at hLook
  next d bridge hQueue =>
    have hTaken : (∀ row, some d = some (.row row) → P row) ∧ bridge.Holds P := by
      unfold Bridge.dequeue at hQueue
      split at hQueue
      · simp at hQueue
      next first rest hRest =>
        obtain ⟨rfl, rfl⟩ : first = d ∧ _ = bridge := by simpa using hQueue
        refine ⟨fun row hEq => h.1 row ?_, fun row hMem => h.1 row ?_⟩
        · rw [hRest, ← Option.some.inj hEq]
          exact List.mem_cons_self
        · rw [hRest]
          exact List.mem_cons_of_mem _ hMem
    obtain ⟨hRow, hBridge⟩ := hTaken.2.settle hTaken.1 c.overrun?
    obtain ⟨rfl, rfl⟩ := Prod.mk.inj (Option.some.inj hLook)
    exact ⟨hRow, hBridge, h.2⟩
  next =>
    obtain ⟨next, hAdvance, hEq⟩ := Option.map_eq_some_iff.mp hLook
    have hNext := h.advance hAdvance
    have hNone : ∀ row, none = some (Delivery.row row) → P row := by simp
    obtain ⟨hRow, hBridge⟩ := hNext.1.settle hNone next.overrun?
    obtain ⟨rfl, rfl⟩ := Prod.mk.inj hEq
    exact ⟨hRow, hBridge, hNext.2⟩

theorem Holds.next (h : c.Holds env P) (patience : Nat) :
    (∀ row, (c.next env patience).1 = some (.ok row) → P row) ∧
      (c.next env patience).2.Holds env P := by
  induction patience generalizing c with
  | zero => exact ⟨by simp [Cursor.next], h⟩
  | succ patience ih =>
      rw [Cursor.next]
      split
      · exact ⟨by simp, h⟩
      split
      next => exact ⟨by simp, h⟩
      next row c' hLook =>
        obtain ⟨hRow, hNext⟩ := h.look hLook
        exact ⟨fun other hEq => Except.ok.inj (Option.some.inj hEq) ▸ hRow row rfl, hNext⟩
      next hLook => exact ⟨by simp, (h.look hLook).2⟩
      next hLook => exact ⟨by simp, (h.look hLook).2⟩
      next hLook => exact ih (h.look hLook).2

theorem Holds.collect (h : c.Holds env P) (patience count : Nat) {found : List Item}
    (hFound : ∀ row, .ok row ∈ found → P row) :
    ∀ row, .ok row ∈ (c.collect env patience count found).1 → P row := by
  induction count generalizing c found with
  | zero => simpa [Cursor.collect] using hFound
  | succ count ih =>
      obtain ⟨hRow, hNext⟩ := h.next patience
      rw [Cursor.collect]
      split
      next => simpa using hFound
      next item c' hItem =>
        rw [hItem] at hRow hNext
        refine ih hNext fun row hMem => ?_
        rcases List.mem_cons.mp hMem with hEq | hOld
        · exact hRow row (congrArg some hEq.symm)
        · exact hFound row hOld

/-- All rows that are read fulfil `P`. -/
theorem Holds.rest (h : c.Holds env P) (patience : Nat) :
    ∀ row, .ok row ∈ (c.rest env patience).1 → P row :=
  h.collect patience patience (by simp)

end Cursor

/-- A query holds what its plan hands over. -/
theorem Evaluation.holds_launch (e : Evaluation) {plan : Plan} {seed : Solution} {scope : Scope}
    (h : (plan.start env seed scope).Ensures P (Process.Emits env P)) (clock : Clock) :
    (e.launch env plan seed scope clock).Holds env P := by
  obtain ⟨hActivity, hBridge⟩ := (Bridge.holds_new e.queueCapacity).play h clock
  exact ⟨hBridge, hActivity⟩

end SolutionFlow
