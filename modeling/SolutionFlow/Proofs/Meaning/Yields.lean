import SolutionFlow.Proofs.Contract.Completeness
import SolutionFlow.Proofs.Flow.Streams
import SolutionFlow.Proofs.Meaning.Bag

/-! What evaluations yield. A plan yields a bag of rows if every run of it, in whatever order its jobs
make their steps, is bounded, never fails, hands over none but these rows, and ends only when it has
handed over all of them. Leaves yield the rows of their calls; a join yields, for each left row, what
the right argument yields on it. -/
namespace SolutionFlow

/-- A stream is on its way to some rows: in no more steps than the bound says it has handed over some
of them without a failure, and all of them if it has ended. -/
structure Trace.Toward (rows : Bag) (bound steps : Nat) (t : Trace) : Prop where
  bounded : steps ≤ bound
  unfailed : t.failed = false
  rows_le : t.rows ≤ rows
  complete : t.ended = true → t.rows = rows

/-- Over a store, each run of the plan from a seed is on its way to the rows, if no row is refused. -/
def Plan.Yields (d : Dataset) (plan : Plan) (seed : Solution) (rows : Bag) : Prop :=
  ∃ bound, ∀ {env : Environment} {scope : Scope} {steps : Nat} {t : Trace} {p : Process},
    env.dataset = d → Run env (plan.start env seed scope) steps t p → t.refused = false →
      t.Toward rows bound steps

/-- So it is in one place of a query, within so many steps. -/
def Plan.YieldsWithin (d : Dataset) (scope : Scope) (bound : Nat) (plan : Plan) (seed : Solution)
    (rows : Bag) : Prop :=
  ∀ ⦃env : Environment⦄ ⦃steps : Nat⦄ ⦃t : Trace⦄ ⦃p : Process⦄,
    env.dataset = d → Run env (plan.start env seed scope) steps t p → t.refused = false →
      t.Toward rows bound steps

/-- Over a store, the evaluation of the plan from a seed gives exactly these rows: however its jobs
take turns, it comes to an end, and then its stream is made of the rows and one end behind them. -/
structure Plan.Gives (d : Dataset) (plan : Plan) (seed : Solution) (rows : Bag) : Prop where
  bounded : ∃ bound, ∀ {env : Environment} {scope : Scope} {steps : Nat} {t : Trace} {p : Process},
    env.dataset = d → Run env (plan.start env seed scope) steps t p → t.refused = false →
      steps ≤ bound
  finishes : ∀ {env : Environment} (scope : Scope), env.dataset = d →
    ∃ steps t p, Run env (plan.start env seed scope) steps t p ∧ t.refused = false ∧ p.Finished
  result : ∀ {env : Environment} {scope : Scope} {steps : Nat} {t : Trace} {p : Process},
    env.dataset = d → Run env (plan.start env seed scope) steps t p → t.refused = false →
      p.Finished → t = t.accepted.map (.row · true) ++ [.finish] ∧ t.rows = rows

/-- What an evaluation gives is determined. -/
theorem Plan.Gives.unique {d : Dataset} {plan : Plan} {seed : Solution} {rows rows' : Bag}
    (h : plan.Gives d seed rows) (h' : plan.Gives d seed rows') : rows = rows' := by
  have hStore : (Environment.ofDataset d).dataset = d := rfl
  obtain ⟨steps, t, p, run, hRefused, hFinished⟩ := h.finishes .root hStore
  rw [← (h.result hStore run hRefused hFinished).2, (h'.result hStore run hRefused hFinished).2]

section

variable {plan : Plan} {seed : Solution} {rows : Bag} {env : Environment} {scope : Scope}
  {bound steps : Nat} {t : Trace} {p : Process}

/-- A stream that is on its way to some rows has ended behind all of them when no job is left. -/
theorem Trace.Toward.finished (h : t.Toward rows bound steps)
    (run : Run env (plan.start env seed scope) steps t p) (hRefused : t.refused = false)
    (hFinished : p.Finished) : t.Completes ∧ t.rows = rows := by
  have hOver := (plan.keeps run).settled hFinished
  have hEnded : t.ended = true := by
    simpa [Trace.isOver, hRefused, h.unfailed] using hOver
  exact ⟨⟨hEnded, h.unfailed⟩, h.complete hEnded⟩

/-- An operator that makes rows of rows is on its way to what it makes of all. -/
theorem Trace.Toward.of_heard {heard : Trace} {f : Bag → Bag} (hMono : ∀ {a b}, a ≤ b → f a ≤ f b)
    (h : heard.Toward rows bound steps) (hEnded : t.ended = heard.ended)
    (hFailed : t.failed = heard.failed) (hRows : t.rows = f heard.rows) :
    t.Toward (f rows) bound steps where
  bounded := h.bounded
  unfailed := hFailed.trans h.unfailed
  rows_le := hRows.trans_le (hMono h.rows_le)
  complete hEnd := by rw [hRows, h.complete (hEnded.symm.trans hEnd)]

/-- A plan whose runs on a clock are bounded can be run until no job is left. -/
theorem Plan.exists_finished_from {first : Clock}
    (hBound : ∀ {steps t p last}, TimedRun env (plan.start env seed scope) first steps t p last →
      t.refused = false → steps ≤ bound) :
    ∃ steps t p last, TimedRun env (plan.start env seed scope) first steps t p last ∧
      t.refused = false ∧ p.Finished := by
  obtain ⟨steps, t, p, last, run, hNone, hEnd⟩ :=
    Evaluation.exists_timedRun env (plan.start env seed scope) first (bound + 1)
  refine ⟨steps, t, p, last, run, hNone, hEnd.resolve_right fun hMany => ?_⟩
  have hFew := hBound run hNone
  omega

/-- So can a plan whose runs are bounded on all clocks. -/
theorem Plan.exists_finished
    (hBound : ∀ {steps t p}, Run env (plan.start env seed scope) steps t p → t.refused = false →
      steps ≤ bound) :
    ∃ steps t p, Run env (plan.start env seed scope) steps t p ∧ t.refused = false ∧
      p.Finished := by
  obtain ⟨steps, t, p, last, run, hNone, hFinished⟩ :=
    @Plan.exists_finished_from plan seed env scope bound (.starting 0) fun run => hBound run.run
  exact ⟨steps, t, p, run.run, hNone, hFinished⟩

end

namespace Plan.Yields

variable {d : Dataset} {plan : Plan} {seed : Solution} {rows : Bag} {env : Environment}
  {scope : Scope} {steps : Nat} {t : Trace} {p : Process}

theorem within (h : plan.Yields d seed rows) :
    ∃ bound, ∀ scope, plan.YieldsWithin d scope bound seed rows := by
  obtain ⟨bound, hBound⟩ := h
  exact ⟨bound, fun scope _ _ _ _ => hBound⟩

theorem of_within (bound : Nat) (h : ∀ scope, plan.YieldsWithin d scope bound seed rows) :
    plan.Yields d seed rows := ⟨bound, fun {_ scope _ _ _} hStore run => h scope hStore run⟩

/-- When no job is left, the stream has ended behind all rows. -/
theorem finished (h : plan.Yields d seed rows) (hStore : env.dataset = d)
    (run : Run env (plan.start env seed scope) steps t p) (hRefused : t.refused = false)
    (hFinished : p.Finished) : t.Completes ∧ t.rows = rows := by
  obtain ⟨bound, hBound⟩ := h
  exact (hBound hStore run hRefused).finished run hRefused hFinished

/-- All that is promised about the evaluation of a plan that yields some rows. -/
theorem gives (h : plan.Yields d seed rows) : plan.Gives d seed rows where
  bounded := by
    obtain ⟨bound, hBound⟩ := h
    exact ⟨bound, fun hStore run hRefused => (hBound hStore run hRefused).bounded⟩
  finishes scope hStore := by
    obtain ⟨bound, hBound⟩ := h
    exact exists_finished fun run hRefused => (hBound hStore run hRefused).bounded
  result {env scope steps t p} hStore run hRefused hFinished := by
    obtain ⟨hCompletes, hRows⟩ := h.finished hStore run hRefused hFinished
    exact ⟨hCompletes.eq (plan.keeps run).orderly, hRows⟩

theorem environment_dataset (e : Evaluation) (plan : Plan) :
    (e.environmentOf plan).dataset = e.collaborators.dataset := by
  rw [Evaluation.environmentOf]
  cases plan.depth <;> rfl

/-- Pushed to a recorder with enough patience, a plan hands over what it yields, and then one end. -/
theorem push (h : plan.Yields d seed rows) :
    ∃ bound, ∀ (e : Evaluation) (clock : Clock), e.collaborators.dataset = d → bound < e.patience →
      ∃ r : Recorder,
        (e.push Recorder.consumer plan seed (clock, .new none none)).2 = r ∧
        (r.rows : Bag) = rows ∧ r.ends = 1 ∧ r.errors = [] := by
  obtain ⟨bound, hBound⟩ := h
  refine ⟨bound, fun e clock hStore hPatience => ⟨_, rfl, ?_⟩⟩
  have hStore := (environment_dataset e plan).trans hStore
  obtain ⟨steps, t, p, run, hRefused, hResult, hEnd⟩ := Evaluation.run_of_push e plan seed clock
  have hFew := (hBound hStore run hRefused).bounded
  have hFinished := hEnd.resolve_right (by omega)
  obtain ⟨hCompletes, hRows⟩ := finished ⟨bound, hBound⟩ hStore run hRefused hFinished
  have hTrace := hCompletes.eq (plan.keeps run).orderly
  rw [hResult]
  refine ⟨?_, ?_, ?_⟩
  · simpa [Recorder.hear, Recorder.new, Trace.rows] using hRows
  · have hOnce : t.ends = 1 := by
      rw [hTrace]
      simp [Trace.ends, List.countP_eq_zero]
    simpa [Recorder.hear, Recorder.new] using hOnce
  · have hNone : t.failures = [] := by
      rw [hTrace]
      simp [Trace.failures]
    simp [Recorder.hear, Recorder.new, hNone]

end Plan.Yields

namespace Trace

/-- A stream that hands over all rows at once is there. -/
theorem toward_completed (rows : List Solution) {bound steps : Nat} (hBounded : steps ≤ bound) :
    Toward rows bound steps (rows.map (.row · true) ++ [.finish]) where
  bounded := hBounded
  unfailed := by simp [failed_rows]
  rows_le := by simp [Trace.rows, accepted_rows]
  complete _ := by simp [Trace.rows, accepted_rows]

/-- A stream that has begun to hand over the rows is on its way. -/
theorem toward_begun (given rest : List Solution) {bound steps : Nat} (hBounded : steps ≤ bound) :
    Toward ((given ++ rest : List Solution) : Bag) bound steps (given.map (.row · true)) where
  bounded := hBounded
  unfailed := failed_rows given
  rows_le := by
    rw [Trace.rows, accepted_rows, ← Multiset.coe_add]
    exact Multiset.le_add_right _ _
  complete hEnded := by simp [ended_rows] at hEnded

/-- A stream of some rows is on its way to them, as long as none is refused. -/
theorem Streams.toward {rows : List Solution} {bound steps : Nat} {t : Trace} (h : t.Streams rows)
    (hBounded : steps ≤ bound) (hRefused : t.refused = false) : t.Toward rows bound steps := by
  cases h with
  | going hRows => exact hRows ▸ toward_begun _ _ hBounded
  | ended => exact toward_completed rows hBounded
  | refused hRows => simp at hRefused

end Trace

namespace Plan.Yields

variable {d : Dataset} {plan : Plan} {seed : Solution} {rows : List Solution}

/-- A leaf that starts a job yields the rows of its call. -/
theorem of_calling {kind : String} {call : Environment → Timed Call}
    (hStart : ∀ env scope, plan.start env seed scope = Process.calling kind call)
    (hCall : ∀ {env : Environment}, env.dataset = d → ∀ clock, (call env clock).1 = .ofRows rows) :
    plan.Yields d seed rows := by
  refine ⟨rows.length + 2, fun {env scope steps t p} hStore run hRefused => ?_⟩
  rw [hStart] at run
  have hOpened : ∀ clock, (call env clock).1.result = .opened (.ofRows rows) := fun clock => by
    rw [hCall hStore]
    rfl
  obtain ⟨hBounded, hStreams⟩ := Process.streams_of_calling hOpened run
  exact hStreams.toward hBounded hRefused

/-- A leaf that is over at once yields what it has said. -/
theorem of_idle
    (hStart : ∀ {env scope t p}, (plan.start env seed scope).Says t p →
      p = .idle ∧ (t.refused = false → t = rows.map (.row · true) ++ [.finish])) :
    plan.Yields d seed rows := by
  refine ⟨0, fun {env scope steps t p} _ run hRefused => ?_⟩
  obtain ⟨rfl, hSays⟩ := run.of_idle fun hSays => (hStart hSays).1
  rw [(hStart hSays).2 hRefused]
  exact Trace.toward_completed rows le_rfl

theorem singleton : Plan.singleton.Yields d seed {seed} := by
  have hOne : ({seed} : Bag) = ([seed] : List Solution) := rfl
  rw [hOne]
  refine of_idle fun {env scope t p} hSays => ?_
  obtain ⟨rfl, rfl | rfl⟩ := Process.says_single hSays
  · exact ⟨rfl, fun _ => rfl⟩
  · simp

theorem empty : Plan.empty.Yields d seed 0 := by
  have hNone : (0 : Bag) = ([] : List Solution) := rfl
  rw [hNone]
  exact of_idle fun hSays => (Process.says_nothing hSays).imp_right fun hEq _ => hEq

end Plan.Yields

end SolutionFlow
