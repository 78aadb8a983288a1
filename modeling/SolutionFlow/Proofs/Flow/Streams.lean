import Mathlib.Data.List.Induction
import SolutionFlow.Proofs.Contract.Leaves
import SolutionFlow.Proofs.Flow.Split

/-! Streams of given rows. A stream hands over these rows in this order, until it has ended behind the last
or a row has been refused. A leaf makes a stream of the rows of its call, and an operator that makes a
stream of one is known by what it does about a single row and about the end. -/
namespace SolutionFlow

namespace Trace

/-- A stream of some rows: the first of them have been accepted so far, and it is over with the end
behind all of them, or if one of them has been refused. -/
inductive Streams (rows : List Solution) : Trace → Prop where
  | going {given rest : List Solution} (hRows : rows = given ++ rest) :
      Streams rows (given.map (.row · true))
  | ended : Streams rows (rows.map (.row · true) ++ [.finish])
  | refused {given rest : List Solution} {row : Solution} (hRows : rows = given ++ row :: rest) :
      Streams rows (given.map (.row · true) ++ [.row row false])

/-- A stream that is over without a refusal has handed over all rows. -/
theorem Streams.eq_of_isOver {rows : List Solution} {t : Trace} (h : Streams rows t)
    (hOver : t.isOver = true) (hRefused : t.refused = false) :
    t = rows.map (.row · true) ++ [.finish] := by
  cases h with
  | going hRows => simp [isOver, ended_rows, refused_rows, failed_rows] at hOver
  | ended => rfl
  | refused hRows => simp at hRefused

/-- The rows that a stream has handed over before its end are all of its rows. -/
theorem Streams.rows_eq {rows given : List Solution}
    (h : Streams rows (given.map (.row · true) ++ [.finish])) : given = rows := by
  have hAll := h.eq_of_isOver (by simp [isOver]) (by simp [refused_rows])
  exact (List.map_inj_right fun _ _ hSame => (Event.row.inj hSame).1).mp (List.append_cancel_right hAll)

/-- Nothing fails in a stream of rows. -/
theorem Streams.unfailed {rows : List Solution} {t : Trace} (h : Streams rows t) : t.failed = false := by
  cases h with
  | going => exact failed_rows _
  | ended => simp [failed_rows]
  | refused => simp [failed_rows]

end Trace

namespace Job

/-- What a job has done about some rows after so many steps: it waits for its call, it has handed over
some of them, or all of them and the end, or one of them has been refused. -/
inductive Delivers (call : Environment → Timed Call) (rows : List Solution) :
    Nat → Trace → JobState → Prop where
  | waiting : Delivers call rows 0 [] (.waiting call)
  | called {given rest : List Solution} (hRows : rows = given ++ rest) :
      Delivers call rows (given.length + 1) (given.map (.row · true))
        (.called (.opened (.ofRows rest)))
  | ended : Delivers call rows (rows.length + 2) (rows.map (.row · true) ++ [.finish]) .ended
  | refused {given rest : List Solution} {row : Solution} (hRows : rows = given ++ row :: rest) :
      Delivers call rows (given.length + 2) (given.map (.row · true) ++ [.row row false]) .ended

variable {call : Environment → Timed Call} {rows : List Solution} {steps : Nat} {t u : Trace}
  {job job' : Job} {env : Environment}

theorem isEnded_iff : job.isEnded = true ↔ job.state = .ended := by
  cases hState : job.state <;> simp [isEnded, hState]

/-- A job makes a stream of its rows, in no more steps than there are rows to hand over and a call and
an end besides. -/
theorem Delivers.streams {state : JobState} (h : Delivers call rows steps t state) :
    steps ≤ rows.length + 2 ∧ t.Streams rows := by
  cases h with
  | waiting => exact ⟨Nat.zero_le _, .going (List.nil_append rows).symm⟩
  | called hRows =>
      refine ⟨?_, .going hRows⟩
      rw [hRows, List.length_append]
      omega
  | ended => exact ⟨Nat.le_refl _, .ended⟩
  | refused hRows =>
      refine ⟨?_, .refused hRows⟩
      rw [hRows, List.length_append]
      omega

/-- The next step hands over the next row, or the end. -/
theorem Delivers.step (hCall : ∀ clock, (call env clock).1.result = .opened (.ofRows rows))
    (h : Delivers call rows steps t job.state) (hLive : job.isEnded = false)
    (hSays : (job.step env).Says u job') : Delivers call rows (steps + 1) (t ++ u) job'.state := by
  generalize hState : job.state = state at h
  cases h with
  | waiting =>
      obtain ⟨rfl, clock, hNow⟩ := says_step_waiting hState hSays
      rw [hNow, hCall]
      exact .called (List.nil_append rows).symm
  | ended => simp [isEnded, hState] at hLive
  | refused => simp [isEnded, hState] at hLive
  | called hRows =>
      rename_i given rest
      obtain ⟨hNone, rfl, hEnded⟩ | ⟨row, hTake, hAnswer⟩ | ⟨error, hTake, -⟩ :=
        says_step_opened hState hSays
      · cases rest with
        | nil =>
            rw [isEnded_iff.mp hEnded]
            rw [List.append_nil] at hRows
            subst hRows
            exact .ended
        | cons row rest => simp [Iteration.ofRows, Iteration.take] at hNone
      · cases rest with
        | nil => simp [Iteration.ofRows, Iteration.take] at hTake
        | cons next rest =>
            obtain rfl : next = row := by simpa [Iteration.ofRows, Iteration.take] using hTake
            obtain ⟨rfl, hNow⟩ | ⟨rfl, hEnded⟩ := hAnswer
            · have hMore : Delivers call rows ((given ++ [next]).length + 1)
                  ((given ++ [next]).map (.row · true)) (.called (.opened (.ofRows rest))) :=
                .called (by simp [hRows])
              have hRest : (Iteration.ofRows (next :: rest)).take.2 = .ofRows rest := rfl
              rw [hNow, hRest]
              simpa using hMore
            · rw [isEnded_iff.mp hEnded]
              exact .refused hRows
      · cases rest <;> simp [Iteration.ofRows, Iteration.take] at hTake

end Job

/-- A leaf makes a stream of the rows of its call. -/
theorem Process.streams_of_calling {env : Environment} {kind : String}
    {call : Environment → Timed Call} {rows : List Solution} {steps : Nat} {t : Trace} {p : Process}
    (hCall : ∀ clock, (call env clock).1.result = .opened (.ofRows rows))
    (run : Run env (calling kind call) steps t p) : steps ≤ rows.length + 2 ∧ t.Streams rows := by
  obtain ⟨job, -, hDelivers⟩ := job_of_run
    (fun steps t job => Job.Delivers call rows steps t job.state) (fun _ => .waiting)
    (fun hBefore hLive hSays => hBefore.step hCall hLive hSays) run
  exact hDelivers.streams

namespace Pipe

variable {σ : Type} {p : Pipe σ} {first s s' : σ} {heard said : Trace} {e : Event}

theorem Passes.of_concat (h : p.Passes first (heard ++ [e]) said s') :
    ∃ before t s, p.Passes first heard before s ∧ p.Relays s e t s' ∧ said = before ++ t := by
  generalize hHeard : heard ++ [e] = all at h
  cases h with
  | nil => simp at hHeard
  | snoc prior last =>
      obtain ⟨rfl, hLast⟩ := List.append_inj' hHeard rfl
      obtain rfl := (List.cons.inj hLast).1
      exact ⟨_, _, _, prior, last, rfl⟩

/-- What an operator does about a stream of some rows, one thing after the other: `Holds` tells what it
has made of the accepted ones, and `Goal` what comes of it. -/
structure Turns (p : Pipe σ) (rows : List Solution) (Holds : List Solution → Trace → σ → Prop)
    (Goal : Trace → Prop) : Prop where
  accept : ∀ {given rest row said s t s'}, rows = given ++ row :: rest → Holds given said s →
    p.Relays s (.row row true) t s' → Holds (given ++ [row]) (said ++ t) s'
  going : ∀ {given rest said s}, rows = given ++ rest → Holds given said s → Goal said
  refuse : ∀ {given rest row said s t s'}, rows = given ++ row :: rest → Holds given said s →
    p.Relays s (.row row false) t s' → Goal (said ++ t)
  finish : ∀ {said s t s'}, Holds rows said s → p.Relays s .finish t s' → Goal (said ++ t)

variable {rows : List Solution} {Holds : List Solution → Trace → σ → Prop} {Goal : Trace → Prop}

/-- What holds of an operator at first still holds when some rows have been accepted. -/
theorem Turns.holds (h : p.Turns rows Holds Goal) (hFirst : Holds [] [] first)
    {given rest : List Solution} (hRows : rows = given ++ rest)
    (passes : p.Passes first (given.map (.row · true)) said s) : Holds given said s := by
  induction given using List.reverseRecOn generalizing rest said s with
  | nil =>
      generalize hHeard : ([] : List Solution).map (Event.row · true) = heard at passes
      cases passes with
      | nil => exact hFirst
      | snoc prior last => simp at hHeard
  | append_singleton given row ih =>
      rw [List.map_append] at passes
      obtain ⟨before, t, middle, hPrior, hLast, rfl⟩ := passes.of_concat
      rw [List.append_assoc] at hRows
      exact h.accept hRows (ih hRows hPrior) hLast

/-- So what comes of a stream of the rows is what comes of the things that it can say. -/
theorem Turns.of_passes (h : p.Turns rows Holds Goal) (hFirst : Holds [] [] first)
    (hHeard : heard.Streams rows) (passes : p.Passes first heard said s) : Goal said := by
  cases hHeard with
  | going hRows => exact h.going hRows (h.holds hFirst hRows passes)
  | ended =>
      obtain ⟨before, t, middle, hPrior, hLast, rfl⟩ := passes.of_concat
      exact h.finish (h.holds hFirst (List.append_nil rows).symm hPrior) hLast
  | refused hRows =>
      obtain ⟨before, t, middle, hPrior, hLast, rfl⟩ := passes.of_concat
      exact h.refuse hRows (h.holds hFirst hRows hPrior) hLast

end Pipe

namespace Process

/-- Whatever comes of a start is, in no more than so many steps, a stream of rows with property `P`. -/
def Supplies (env : Environment) (start : Emission Process) (bound : Nat)
    (P : List Solution → Prop) : Prop :=
  ∀ ⦃steps t p⦄, Run env start steps t p → steps ≤ bound ∧ ∃ rows, P rows ∧ t.Streams rows

variable {env : Environment} {bound : Nat} {P Q : List Solution → Prop} {arg : Emission Process}

theorem supplies_calling {kind : String} {call : Environment → Timed Call} {rows : List Solution}
    (hCall : ∀ clock, (call env clock).1.result = .opened (.ofRows rows)) :
    Supplies env (calling kind call) (rows.length + 2) (· = rows) := by
  intro steps t p run
  obtain ⟨hBound, hStreams⟩ := streams_of_calling hCall run
  exact ⟨hBound, rows, rfl, hStreams⟩

theorem supplies_nothing : Supplies env nothing 0 (· = []) := by
  intro steps t p run
  obtain ⟨rfl, hSays⟩ := run.of_idle fun hSays => (says_nothing hSays).1
  obtain ⟨-, rfl⟩ := says_nothing hSays
  exact ⟨Nat.le_refl _, [], rfl, .ended⟩

/-- An operator of one argument supplies what it makes of the streams of the argument. -/
theorem Supplies.underOne {σ : Type} {pipe : Pipe σ} {wrap : σ → Operator} {first : σ}
    (hOpens : ∀ s, (wrap s).opens = false) (hReact : ∀ k s, (wrap s).react env k = pipe.react s wrap)
    (h : Supplies env arg bound P)
    (hMakes : ∀ {rows heard said s}, P rows → heard.Streams rows → pipe.Passes first heard said s →
      ∃ out, Q out ∧ said.Streams out) :
    Supplies env (underOne env (wrap first) arg) bound Q := by
  intro steps t p run
  obtain ⟨heard, child, s, hRun, hPasses, -⟩ := passes_underOne hOpens hReact run
  obtain ⟨hBound, rows, hRows, hHeard⟩ := h hRun
  exact ⟨hBound, hMakes hRows hHeard hPasses⟩

end Process

end SolutionFlow
