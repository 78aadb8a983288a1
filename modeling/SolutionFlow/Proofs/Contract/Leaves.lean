import SolutionFlow.Proofs.Contract.Duties
import SolutionFlow.Proofs.Flow.Run

/-! Leaves. A job hands over its rows as long as they are accepted, and then says once in which way it
is over: it ends, it has been refused a row, or it fails. A leaf without a job says all of this at
once. -/
namespace SolutionFlow

/-- What a query promises to a consumer that is there: it keeps the order, it has said that it is
over when no job is left, and its end tells that its rows are complete, if it is `trusted`. -/
structure Process.Keeps (trusted : Prop) (t : Trace) (p : Process) : Prop where
  orderly : t.Orderly
  settled : p.Finished → t.isOver = true
  certified : trusted → t.Certified

namespace Job

variable {env : Environment} {job job' : Job} {t : Trace}

theorem says_next {delay : Duration} {state : JobState} (h : (job.next delay state).Says t job') :
    t = [] ∧ job'.state = state := by
  simp only [next, Emission.says_bind, Emission.says_time, Emission.says_pure] at h
  obtain ⟨_, now, _, ⟨rfl, -⟩, ⟨rfl, rfl⟩, rfl⟩ := h
  exact ⟨rfl, rfl⟩

theorem says_failWith {error : QueryError} (h : (job.failWith error).Says t job') :
    t = [.fail error] ∧ job'.isEnded = true := by
  simp only [failWith, bind_pure_comp, Emission.says_map, Emission.says_reportIfHeard] at h
  obtain ⟨_, rfl, rfl⟩ := h
  exact ⟨rfl, rfl⟩

/-- A job makes its call in silence. -/
theorem says_step_waiting {call : Environment → Timed Call} (hState : job.state = .waiting call)
    (h : (job.step env).Says t job') :
    t = [] ∧ ∃ clock, job'.state = .called (call env clock).1.result := by
  simp only [step, hState] at h
  rw [Emission.says_bind_silent fun _ _ => Emission.says_isGone] at h
  simp only [Bool.false_eq_true, ↓reduceIte, Emission.says_bind, Emission.says_timed] at h
  obtain ⟨_, made, _, ⟨rfl, clock, rfl⟩, hNext, rfl⟩ := h
  obtain ⟨rfl, hNow⟩ := says_next hNext
  exact ⟨rfl, clock, hNow⟩

/-- After a call that has failed a job ends with a failure. -/
theorem says_step_failed {error : QueryError} (hState : job.state = .called (.failed error))
    (h : (job.step env).Says t job') : t = [.fail error] ∧ job'.isEnded = true := by
  simp only [step, hState] at h
  exact says_failWith h

theorem says_step_panicked {reason : String} (hState : job.state = .called (.panicked reason))
    (h : (job.step env).Says t job') :
    t = [.fail (.panicked job.kind reason)] ∧ job'.isEnded = true := by
  simp only [step, hState] at h
  exact says_failWith h

/-- A job hands over the next item of a sequence, or the end behind the last one. -/
theorem says_step_opened {items : Iteration} (hState : job.state = .called (.opened items))
    (h : (job.step env).Says t job') :
    (items.take.1 = none ∧ t = [.finish] ∧ job'.isEnded = true) ∨
    (∃ row, items.take.1 = some (.ok row) ∧
      (t = [.row row true] ∧ job'.state = .called (.opened items.take.2) ∨
        t = [.row row false] ∧ job'.isEnded = true)) ∨
    (∃ error, items.take.1 = some (.error error) ∧ t = [.fail error] ∧ job'.isEnded = true) := by
  simp only [step, hState] at h
  rw [Emission.says_bind_silent fun _ _ => Emission.says_isGone] at h
  simp only [Bool.false_eq_true, ↓reduceIte, handOver] at h
  rcases hTake : items.take with ⟨_ | item | row, rest⟩
  · simp only [hTake, bind_pure_comp, Emission.says_map, Emission.says_finished] at h
    obtain ⟨_, rfl, rfl⟩ := h
    exact .inl ⟨rfl, rfl, rfl⟩
  · rw [hTake] at h
    obtain ⟨rfl, hEnded⟩ := says_failWith h
    exact .inr (.inr ⟨item, rfl, rfl, hEnded⟩)
  · simp only [hTake] at h
    obtain ⟨t₁, more, t₂, hPush, hRest, rfl⟩ := Emission.says_bind.mp h
    obtain rfl := Emission.says_push.mp hPush
    cases more with
    | true =>
        obtain ⟨rfl, hNow⟩ := says_next hRest
        exact .inr (.inl ⟨row, rfl, .inl ⟨rfl, hNow⟩⟩)
    | false =>
        obtain ⟨rfl, rfl⟩ := hRest
        exact .inr (.inl ⟨row, rfl, .inr ⟨rfl, rfl⟩⟩)

/-- A live job says nothing or hands over a row, or it says in which way it is over. -/
theorem says_step (hLive : job.isEnded = false) (h : (job.step env).Says t job') :
    (job'.isEnded = false ∧ (t = [] ∨ ∃ row, t = [.row row true])) ∨
    (job'.isEnded = true ∧
      (t = [.finish] ∨ (∃ error, t = [.fail error]) ∨ ∃ row, t = [.row row false])) := by
  cases hState : job.state with
  | ended => simp [isEnded, hState] at hLive
  | waiting call =>
      obtain ⟨rfl, clock, hNow⟩ := says_step_waiting hState h
      exact .inl ⟨by simp [isEnded, hNow], .inl rfl⟩
  | called result =>
      cases result with
      | failed error =>
          obtain ⟨rfl, hEnded⟩ := says_step_failed hState h
          exact .inr ⟨hEnded, .inr (.inl ⟨error, rfl⟩)⟩
      | panicked reason =>
          obtain ⟨rfl, hEnded⟩ := says_step_panicked hState h
          exact .inr ⟨hEnded, .inr (.inl ⟨_, rfl⟩)⟩
      | opened items =>
          obtain ⟨-, rfl, hEnded⟩ | ⟨row, -, ⟨rfl, hNow⟩ | ⟨rfl, hEnded⟩⟩ |
            ⟨error, -, rfl, hEnded⟩ := says_step_opened hState h
          · exact .inr ⟨hEnded, .inl rfl⟩
          · exact .inl ⟨by simp [isEnded, hNow], .inr ⟨row, rfl⟩⟩
          · exact .inr ⟨hEnded, .inr (.inr ⟨row, rfl⟩)⟩
          · exact .inr ⟨hEnded, .inr (.inl ⟨error, rfl⟩)⟩

end Job

namespace Trace

/-- A stream that has said nothing but accepted rows, or is over after such rows. -/
inductive Plain : Bool → Trace → Prop where
  | going (rows : List Solution) : Plain false (rows.map (.row · true))
  | finish (rows : List Solution) : Plain true (rows.map (.row · true) ++ [.finish])
  | fail (rows : List Solution) (error : QueryError) :
      Plain true (rows.map (.row · true) ++ [.fail error])
  | refused (rows : List Solution) (row : Solution) :
      Plain true (rows.map (.row · true) ++ [.row row false])

theorem Plain.orderly {done : Bool} {t : Trace} (h : Plain done t) : t.Orderly := by
  cases h with
  | going rows => simpa using orderly_rows rows orderly_nil
  | finish rows => exact orderly_rows rows (orderly_singleton _)
  | fail rows error => exact orderly_rows rows (orderly_singleton _)
  | refused rows row => exact orderly_rows rows (orderly_singleton _)

theorem Plain.certified {done : Bool} {t : Trace} (h : Plain done t) : t.Certified := by
  cases h <;> simp [Certified, ended_rows, failed_rows]

theorem Plain.isOver {t : Trace} (h : Plain true t) : t.isOver = true := by
  cases h <;> simp [Trace.isOver]

/-- What a job says next keeps its stream plain. -/
theorem Plain.append {done : Bool} {t u : Trace} (h : Plain false t)
    (hNext : (done = false ∧ (u = [] ∨ ∃ row, u = [.row row true])) ∨
      (done = true ∧
        (u = [.finish] ∨ (∃ error, u = [.fail error]) ∨ ∃ row, u = [.row row false]))) :
    Plain done (t ++ u) := by
  obtain ⟨rows⟩ := h
  obtain ⟨rfl, rfl | ⟨row, rfl⟩⟩ | ⟨rfl, rfl | ⟨error, rfl⟩ | ⟨row, rfl⟩⟩ := hNext
  · simpa using Plain.going rows
  · simpa using Plain.going (rows ++ [row])
  · exact .finish rows
  · exact .fail rows error
  · exact .refused rows row

end Trace

namespace Process

variable {env : Environment} {first : Emission Process} {steps : Nat} {t : Trace} {p : Process}

/-- A leaf at its start: a job that has said nothing, or a stream that is over. -/
def StartsLeaf (t : Trace) (p : Process) : Prop :=
  (p = .idle ∧ Trace.Plain true t) ∨ (t = [] ∧ ∃ job, p = .leaf job ∧ job.isEnded = false)

/-- The stream of a leaf is plain. -/
theorem plain_of_run (hStart : ∀ t p, first.Says t p → StartsLeaf t p)
    (run : Run env first steps t p) :
    (p = .idle ∧ Trace.Plain true t) ∨ ∃ job, p = .leaf job ∧ Trace.Plain job.isEnded t := by
  induction run with
  | start hSays =>
      obtain hIdle | ⟨rfl, job, rfl, hLive⟩ := hStart _ _ hSays
      · exact .inl hIdle
      · exact .inr ⟨job, rfl, hLive ▸ .going []⟩
  | step prior hLive last ih =>
      rename_i path
      obtain ⟨rfl, -⟩ | ⟨job, rfl, hPlain⟩ := ih
      · exact absurd hLive (finished_idle path)
      · have hGoing : job.isEnded = false := by
          cases path with
          | nil => exact hLive
          | cons k path => exact absurd hLive (by simp [Live])
        simp only [deliver, bind_pure_comp, Emission.says_map] at last
        obtain ⟨job', hSays, rfl⟩ := last
        exact .inr ⟨job', rfl, (hGoing ▸ hPlain).append (Job.says_step hGoing hSays)⟩

/-- Leaves keep their promise. -/
theorem keeps_leaf (hStart : ∀ t p, first.Says t p → StartsLeaf t p)
    (run : Run env first steps t p) : Keeps True t p := by
  obtain ⟨rfl, hPlain⟩ | ⟨job, rfl, hPlain⟩ := plain_of_run hStart run
  · exact ⟨hPlain.orderly, fun _ => hPlain.isOver, fun _ => hPlain.certified⟩
  · refine ⟨hPlain.orderly, fun hFinished => ?_, fun _ => hPlain.certified⟩
    rw [finished_leaf] at hFinished
    exact (hFinished ▸ hPlain).isOver

theorem says_single {row : Solution} (h : (single row).Says t p) :
    p = .idle ∧ (t = [.row row true, .finish] ∨ t = [.row row false]) := by
  simp only [single, Emission.says_bind, Emission.says_push] at h
  obtain ⟨_, more, _, rfl, hRest, rfl⟩ := h
  cases more with
  | true =>
      simp only [↓reduceIte, bind_pure_comp, Emission.says_map, Emission.says_finished] at hRest
      obtain ⟨_, rfl, rfl⟩ := hRest
      exact ⟨rfl, .inl rfl⟩
  | false =>
      obtain ⟨rfl, rfl⟩ := hRest
      exact ⟨rfl, .inr rfl⟩

theorem startsLeaf_single (row : Solution) : ∀ t p, (single row).Says t p → StartsLeaf t p := by
  intro t p h
  obtain ⟨rfl, rfl | rfl⟩ := says_single h
  · exact .inl ⟨rfl, .finish [row]⟩
  · exact .inl ⟨rfl, .refused [] row⟩

theorem says_nothing (h : nothing.Says t p) : p = .idle ∧ t = [.finish] := by
  simp only [nothing, bind_pure_comp, Emission.says_map, Emission.says_finished] at h
  obtain ⟨_, rfl, rfl⟩ := h
  exact ⟨rfl, rfl⟩

theorem startsLeaf_nothing : ∀ t p, nothing.Says t p → StartsLeaf t p := by
  intro t p h
  obtain ⟨rfl, rfl⟩ := says_nothing h
  exact .inl ⟨rfl, .finish []⟩

/-- A job that has not been started on anything yet. -/
theorem says_calling {kind : String} {call : Environment → Timed Call}
    (h : (calling kind call).Says t p) :
    t = [] ∧ ∃ now, p = .leaf ⟨kind, now, .waiting call⟩ := by
  simp only [calling, bind_pure_comp, Emission.says_map, Emission.says_time] at h
  obtain ⟨now, ⟨rfl, -⟩, rfl⟩ := h
  exact ⟨rfl, now, rfl⟩

/-- What holds of a job that waits for its call, and is kept by its steps, holds whenever it has run. -/
theorem job_of_run (holds : Nat → Trace → Job → Prop) {kind : String}
    {call : Environment → Timed Call} (hStart : ∀ now, holds 0 [] ⟨kind, now, .waiting call⟩)
    (hStep : ∀ {steps t u job job'}, holds steps t job → job.isEnded = false →
      (job.step env).Says u job' → holds (steps + 1) (t ++ u) job')
    (run : Run env (calling kind call) steps t p) : ∃ job, p = .leaf job ∧ holds steps t job := by
  induction run with
  | start hSays =>
      obtain ⟨rfl, now, rfl⟩ := says_calling hSays
      exact ⟨_, rfl, hStart now⟩
  | step prior hLive last ih =>
      rename_i path
      obtain ⟨job, rfl, hHolds⟩ := ih
      have hGoing : job.isEnded = false := by
        cases path with
        | nil => exact hLive
        | cons k path => exact absurd hLive (by simp [Live])
      simp only [deliver, bind_pure_comp, Emission.says_map] at last
      obtain ⟨job', hSays, rfl⟩ := last
      exact ⟨job', rfl, hStep hHolds hGoing hSays⟩

theorem startsLeaf_calling (kind : String) (call : Environment → Timed Call) :
    ∀ t p, (calling kind call).Says t p → StartsLeaf t p := by
  intro t p h
  obtain ⟨rfl, now, rfl⟩ := says_calling h
  exact .inr ⟨rfl, _, rfl, rfl⟩

/-- A leaf that cannot be started at all has failed. -/
theorem startsLeaf_fail (error : QueryError) : ∀ t p, (do
    Emission.reportIfHeard error
    return Process.idle).Says t p → StartsLeaf t p := by
  intro t p h
  simp only [bind_pure_comp, Emission.says_map, Emission.says_reportIfHeard] at h
  obtain ⟨_, rfl, rfl⟩ := h
  exact .inl ⟨rfl, .fail [] error⟩

theorem startsLeaf_callingOn {α : Type} (kind collaborator : String) (helper : Option α)
    (call : α → Environment → Timed Call) :
    ∀ t p, (callingOn kind collaborator helper call).Says t p → StartsLeaf t p := by
  cases helper with
  | none => exact startsLeaf_fail _
  | some h => exact startsLeaf_calling kind (call h)

theorem startsLeaf_zeroLength (ends : PathEnds) (seed : Solution) :
    ∀ t p, (zeroLength env ends seed).Says t p → StartsLeaf t p := by
  unfold zeroLength
  split
  · split
    · exact startsLeaf_single seed
    · exact startsLeaf_nothing
  · exact startsLeaf_callingOn _ _ _ _

theorem startsLeaf_service (endpoint : Slot) (arg : Plan) (silent : Bool) (seed : Solution) :
    ∀ t p, (service env endpoint arg silent seed).Says t p → StartsLeaf t p := by
  unfold service
  split
  · exact startsLeaf_calling _ _
  · split
    · exact startsLeaf_single seed
    · exact startsLeaf_fail _
  · exact startsLeaf_fail _

end Process

end SolutionFlow
