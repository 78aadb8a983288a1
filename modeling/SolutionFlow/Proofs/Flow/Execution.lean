import SolutionFlow.Proofs.Flow.Ensures

/-! Executions of queries. Unlike in a run, the consumer may be gone, or say so now and then: each time it
is asked, either answer may come. What `Evaluation.push` does with any consumer is one of the
executions. -/
namespace SolutionFlow

namespace Emission

variable {α β : Type}

/-- An emission can tell `t` to a consumer, whether or not that is gone, and leave a value behind. -/
def Tells : Emission α → Trace → α → Prop
  | .done value, t, v => t = [] ∧ v = value
  | .emit row next, t, v => ∃ more u, t = .row row more :: u ∧ (next more).Tells u v
  | .finish next, t, v => ∃ u, t = .finish :: u ∧ next.Tells u v
  | .fail error next, t, v => ∃ u, t = .fail error :: u ∧ next.Tells u v
  | .probe next, t, v => ∃ gone, (next gone).Tells t v
  | .consult next, t, v => ∃ clock, (next clock).Tells t v
  | .adjust _ next, t, v => next.Tells t v

/-- What holds of all rows of an emission holds of those that it tells. -/
theorem Ensures.of_tells {P : Solution → Prop} {Q : α → Prop} {e : Emission α} (h : e.Ensures P Q)
    {t : Trace} {value : α} (hTells : e.Tells t value) :
    (∀ row more, Event.row row more ∈ t → P row) ∧ Q value := by
  induction e generalizing t with
  | done value =>
      obtain ⟨rfl, rfl⟩ := hTells
      exact ⟨by simp, h⟩
  | emit row next ih =>
      obtain ⟨reply, rest, rfl, hRest⟩ := hTells
      obtain ⟨hRows, hValue⟩ := ih reply (h.2 reply) hRest
      refine ⟨fun other more hMem => ?_, hValue⟩
      rcases List.mem_cons.mp hMem with hEq | hLater
      · cases hEq
        exact h.1
      · exact hRows other more hLater
  | finish next ih =>
      obtain ⟨rest, rfl, hRest⟩ := hTells
      obtain ⟨hRows, hValue⟩ := ih h hRest
      exact ⟨by simpa using hRows, hValue⟩
  | fail error next ih =>
      obtain ⟨rest, rfl, hRest⟩ := hTells
      obtain ⟨hRows, hValue⟩ := ih h hRest
      exact ⟨by simpa using hRows, hValue⟩
  | probe next ih =>
      obtain ⟨gone, hRest⟩ := hTells
      exact ih gone (h gone) hRest
  | consult next ih =>
      obtain ⟨clock, hRest⟩ := hTells
      exact ih clock (h clock) hRest
  | adjust clock next ih => exact ih h hTells

/-- A consumer that is there is told what the emission says. -/
theorem Says.tells {e : Emission α} {t : Trace} {v : α} (h : e.Says t v) : e.Tells t v := by
  induction e generalizing t with
  | done value => exact h
  | emit row next ih =>
      obtain ⟨more, u, rfl, hRest⟩ := h
      exact ⟨more, u, rfl, ih more hRest⟩
  | finish next ih =>
      obtain ⟨u, rfl, hRest⟩ := h
      exact ⟨u, rfl, ih hRest⟩
  | fail error next ih =>
      obtain ⟨u, rfl, hRest⟩ := h
      exact ⟨u, rfl, ih hRest⟩
  | probe next ih => exact ⟨false, ih false h⟩
  | consult next ih =>
      obtain ⟨clock, hRest⟩ := h
      exact ⟨clock, ih clock hRest⟩
  | adjust clock next ih => exact ih h

theorem tells_bind {e : Emission α} {f : α → Emission β} {t : Trace} {v : β}
    (h : (e >>= f).Tells t v) : ∃ t₁ w t₂, e.Tells t₁ w ∧ (f w).Tells t₂ v ∧ t = t₁ ++ t₂ := by
  change (e.bind f).Tells t v at h
  induction e generalizing t with
  | done value => exact ⟨[], value, t, ⟨rfl, rfl⟩, h, rfl⟩
  | emit row next ih =>
      obtain ⟨more, u, rfl, hNext⟩ := h
      obtain ⟨t₁, w, t₂, hFirst, hRest, rfl⟩ := ih more hNext
      exact ⟨_, w, t₂, ⟨more, t₁, rfl, hFirst⟩, hRest, rfl⟩
  | finish next ih =>
      obtain ⟨u, rfl, hNext⟩ := h
      obtain ⟨t₁, w, t₂, hFirst, hRest, rfl⟩ := ih hNext
      exact ⟨_, w, t₂, ⟨t₁, rfl, hFirst⟩, hRest, rfl⟩
  | fail error next ih =>
      obtain ⟨u, rfl, hNext⟩ := h
      obtain ⟨t₁, w, t₂, hFirst, hRest, rfl⟩ := ih hNext
      exact ⟨_, w, t₂, ⟨t₁, rfl, hFirst⟩, hRest, rfl⟩
  | probe next ih =>
      obtain ⟨gone, hNext⟩ := h
      obtain ⟨t₁, w, t₂, hFirst, hRest, rfl⟩ := ih gone hNext
      exact ⟨t₁, w, t₂, ⟨gone, hFirst⟩, hRest, rfl⟩
  | consult next ih =>
      obtain ⟨clock, hNext⟩ := h
      obtain ⟨t₁, w, t₂, hFirst, hRest, rfl⟩ := ih clock hNext
      exact ⟨t₁, w, t₂, ⟨clock, hFirst⟩, hRest, rfl⟩
  | adjust clock next ih => exact ih h

/-- A question is answered in one way or the other, and not heard. -/
theorem tells_isGone {f : Bool → Emission β} {t : Trace} {v : β} (h : (isGone >>= f).Tells t v) :
    ∃ gone, (f gone).Tells t v := h

theorem tells_timed {act : Timed α} {f : α → Emission β} {t : Trace} {v : β}
    (h : (timed act >>= f).Tells t v) : ∃ clock, (f (act clock).1).Tells t v := h

theorem tells_time {f : Nat → Emission β} {t : Trace} {v : β} (h : (time >>= f).Tells t v) :
    ∃ now, (f now).Tells t v := by
  obtain ⟨clock, hRest⟩ := h
  exact ⟨clock.time, hRest⟩

theorem tells_push {row : Solution} {f : Bool → Emission β} {t : Trace} {v : β}
    (h : (push row >>= f).Tells t v) : ∃ more u, t = .row row more :: u ∧ (f more).Tells u v := h

theorem tells_finished {f : Unit → Emission β} {t : Trace} {v : β} (h : (finished >>= f).Tells t v) :
    ∃ u, t = .finish :: u ∧ (f ()).Tells u v := h

/-- Whoever is gone does not hear of a failure. -/
theorem tells_reportIfHeard {error : QueryError} {f : Unit → Emission β} {t : Trace} {v : β}
    (h : (reportIfHeard error >>= f).Tells t v) :
    (f ()).Tells t v ∨ ∃ u, t = .fail error :: u ∧ (f ()).Tells u v := by
  obtain ⟨gone, hRest⟩ := h
  cases gone with
  | true => exact .inl hRest
  | false => exact .inr hRest

end Emission

/-- A process that comes of `start` can have told `t` to its consumer, whatever that has replied, and
whether or not it has been gone when it was asked. -/
inductive Execution (env : Environment) (start : Emission Process) : Trace → Process → Prop where
  | start {t : Trace} {p : Process} (first : start.Tells t p) : Execution env start t p
  | step {t u : Trace} {p q : Process} {path : List Nat} (prior : Execution env start t p)
      (hLive : p.Live path) (last : (p.deliver env path).Tells u q) : Execution env start (t ++ u) q

/-- All rows of an execution fulfil what its process says of the rows that it hands over. -/
theorem Execution.emits {env : Environment} {P : Solution → Prop} {start : Emission Process}
    {t : Trace} {p : Process} (execution : Execution env start t p)
    (h : start.Ensures P (Process.Emits env P)) :
    (∀ row more, Event.row row more ∈ t → P row) ∧ p.Emits env P := by
  induction execution with
  | start first => exact h.of_tells first
  | step prior hLive last ih =>
      obtain ⟨hRows, hProcess⟩ := ih
      obtain ⟨hMore, hNext⟩ := Emission.Ensures.of_tells (hProcess.deliver _) last
      refine ⟨fun row more hMem => ?_, hNext⟩
      exact (List.mem_append.mp hMem).elim (hRows row more) (hMore row more)

/-- Each run, of which the consumer is there all the time, is an execution. -/
theorem Run.execution {env : Environment} {start : Emission Process} {steps : Nat} {t : Trace}
    {p : Process} (run : Run env start steps t p) : Execution env start t p := by
  induction run with
  | start first => exact .start first.tells
  | step prior hLive last ih => exact ih.step hLive last.tells

/-- Nothing comes of a start that leaves no job. -/
theorem Execution.of_idle {env : Environment} {first : Emission Process} {t : Trace} {p : Process}
    (hIdle : ∀ {t p}, first.Tells t p → p = .idle) (execution : Execution env first t p) :
    first.Tells t p := by
  induction execution with
  | start hTells => exact hTells
  | step prior hLive last ih =>
      rename_i path
      rw [hIdle ih] at hLive
      exact absurd hLive (Process.finished_idle path)

namespace Consumer

variable {σ : Type} {c : Consumer σ}

/-- A consumer has come from one state to another by what it was told, and each row got its reply. -/
inductive Hears (c : Consumer σ) : σ → Trace → σ → Prop where
  | nil {s : σ} : c.Hears s [] s
  | row {s s' : σ} {row : Solution} {t : Trace} (rest : c.Hears (c.row s row).2 t s') :
      c.Hears s (.row row (c.row s row).1 :: t) s'
  | finish {s s' : σ} {t : Trace} (rest : c.Hears (c.finish s) t s') : c.Hears s (.finish :: t) s'
  | fail {s s' : σ} {error : QueryError} {t : Trace} (rest : c.Hears (c.fail s error) t s') :
      c.Hears s (.fail error :: t) s'

theorem Hears.append {s s' s'' : σ} {t u : Trace} (first : c.Hears s t s') (next : c.Hears s' u s'') :
    c.Hears s (t ++ u) s'' := by
  induction first with
  | nil => exact next
  | row rest ih => exact .row (ih next)
  | finish rest ih => exact .finish (ih next)
  | fail rest ih => exact .fail (ih next)

/-- What an emission leaves behind with a consumer it has told it. -/
theorem hears_of_deliver {α : Type} (c : Consumer σ) (e : Emission α) (clock : Clock) (s : σ) :
    ∃ t, e.Tells t (e.deliver c (clock, s)).1 ∧ c.Hears s t (e.deliver c (clock, s)).2.2 := by
  induction e generalizing clock s with
  | done value => exact ⟨[], ⟨rfl, rfl⟩, .nil⟩
  | emit row next ih =>
      obtain ⟨t, hTells, hHears⟩ := ih (c.row s row).1 clock (c.row s row).2
      exact ⟨_, ⟨_, t, rfl, hTells⟩, .row hHears⟩
  | finish next ih =>
      obtain ⟨t, hTells, hHears⟩ := ih clock (c.finish s)
      exact ⟨_, ⟨t, rfl, hTells⟩, .finish hHears⟩
  | fail error next ih =>
      obtain ⟨t, hTells, hHears⟩ := ih clock (c.fail s error)
      exact ⟨_, ⟨t, rfl, hTells⟩, .fail hHears⟩
  | probe next ih =>
      obtain ⟨t, hTells, hHears⟩ := ih (c.gone s) clock s
      exact ⟨t, ⟨_, hTells⟩, hHears⟩
  | consult next ih =>
      obtain ⟨t, hTells, hHears⟩ := ih clock clock s
      exact ⟨t, ⟨_, hTells⟩, hHears⟩
  | adjust later next ih => exact ih later s

end Consumer

namespace Evaluation

variable {σ : Type} {c : Consumer σ} {env : Environment}

theorem execution_of_exhaust {start : Emission Process} {t : Trace} {p : Process} {first s : σ}
    (execution : Execution env start t p) (hHears : c.Hears first t s) (patience : Nat) (clock : Clock) :
    ∃ u q, Execution env start u q ∧ c.Hears first u (exhaust env c patience p (clock, s)).2 := by
  induction patience generalizing t p clock s with
  | zero => exact ⟨t, p, execution, hHears⟩
  | succ patience ih =>
      rw [exhaust]
      cases hEarliest : p.earliest with
      | none => exact ⟨t, p, execution, hHears⟩
      | some appointment =>
          obtain ⟨u, hTells, hMore⟩ := c.hears_of_deliver (p.deliver env appointment.path)
            { clock with time := appointment.time } s
          exact ih (execution.step (Process.live_of_earliest p hEarliest) hTells) (hHears.append hMore) _

/-- Pushing a plan to a consumer, whatever that does, is an execution of the plan. -/
theorem execution_of_push (e : Evaluation) (c : Consumer σ) (plan : Plan) (seed : Solution)
    (clock : Clock) (s : σ) :
    ∃ t p, Execution (e.environmentOf plan) (plan.start (e.environmentOf plan) seed .root) t p ∧
      c.Hears s t (e.push c plan seed (clock, s)).2 := by
  obtain ⟨t, hTells, hHears⟩ :=
    c.hears_of_deliver (plan.start (e.environmentOf plan) seed .root) clock s
  exact execution_of_exhaust (.start hTells) hHears e.patience _

end Evaluation

end SolutionFlow
