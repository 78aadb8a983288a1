import SolutionFlow.Proofs.Contract.EndOfStream
import SolutionFlow.Proofs.Flow.Execution
import SolutionFlow.Proofs.Meaning.Yields

/-! Silent services. A leaf recounts the items of its call: the rows in their order, and then the end, or the
first failure among them, unless a row is refused or its consumer is gone before. A silent service has the
seed for its items if it knows no endpoint or if its call fails. The failures within a sequence that was
opened are none of its own, and it recounts them as every leaf does. -/
namespace SolutionFlow

namespace Trace

/-- What is said of some items to a consumer that accepts all rows: nothing comes behind a failure. -/
def ofItems : List Item → Trace
  | [] => [.finish]
  | .ok row :: rest => .row row true :: ofItems rest
  | .error error :: _ => [.fail error]

/-- A stream of some items: it has handed over rows with which they begin, or has said all that there is
to say of them, or one of the rows has been refused. -/
inductive Recounts (items : List Item) : Trace → Prop where
  | going {given : List Solution} {rest : List Item} (hItems : items = given.map .ok ++ rest) :
      Recounts items (given.map (.row · true))
  | whole : Recounts items (ofItems items)
  | refused {given : List Solution} {row : Solution} {rest : List Item}
      (hItems : items = given.map .ok ++ .ok row :: rest) :
      Recounts items (given.map (.row · true) ++ [.row row false])

variable {items : List Item} {t : Trace}

/-- A stream that has not said anything yet. -/
theorem recounts_nil (items : List Item) : Recounts items [] :=
  .going (show items = ([] : List Solution).map .ok ++ items from rfl)

theorem ofItems_append (given : List Solution) (rest : List Item) :
    ofItems (given.map .ok ++ rest) = given.map (.row · true) ++ ofItems rest := by
  induction given with
  | nil => rfl
  | cons row given ih => exact congrArg (Event.row row true :: ·) ih

/-- Behind rows that were handed over, the rest of the items completes the stream. -/
theorem recounts_append (given : List Solution) (rest : List Item) :
    Recounts (given.map .ok ++ rest) (given.map (.row · true) ++ ofItems rest) := by
  rw [← ofItems_append]
  exact .whole

@[simp]
theorem refused_ofItems (items : List Item) : (ofItems items).refused = false := by
  induction items with
  | nil => rfl
  | cons item rest ih =>
      cases item with
      | ok row => simpa [ofItems] using ih
      | error error => rfl

/-- A failure is heard exactly if there is one among the items. -/
theorem failed_ofItems : (ofItems items).failed = false ↔ ∀ item ∈ items, item.isOk = true := by
  induction items with
  | nil => simp [ofItems]
  | cons item rest ih =>
      cases item with
      | ok row => simpa [ofItems, Except.isOk, Except.toBool] using ih
      | error error => simp [ofItems, Except.isOk, Except.toBool]

/-- The end is heard exactly if there is none. -/
theorem ends_ofItems : (ofItems items).ends = 1 ↔ ∀ item ∈ items, item.isOk = true := by
  induction items with
  | nil => simp [ofItems, ends]
  | cons item rest ih =>
      cases item with
      | ok row => simpa [ofItems, ends, Except.isOk, Except.toBool] using ih
      | error error => simp [ofItems, ends, Except.isOk, Except.toBool]

/-- Nothing but a failure among the items is reported. -/
theorem Recounts.unfailed (h : t.Recounts items) (hItems : ∀ item ∈ items, item.isOk = true) :
    t.failed = false := by
  cases h with
  | going => exact failed_rows _
  | whole => exact failed_ofItems.mpr hItems
  | refused => simp [failed_rows]

/-- A stream that is over without a refusal has said all. -/
theorem Recounts.eq_of_isOver (h : t.Recounts items) (hOver : t.isOver = true)
    (hRefused : t.refused = false) : t = ofItems items := by
  cases h with
  | going => simp [isOver, ended_rows, refused_rows, failed_rows] at hOver
  | whole => rfl
  | refused => simp at hRefused

end Trace

/-- The items that come of a call which a job of the given kind has made: a call without a sequence gives
a failure, and a sequence without end is no list of items. -/
def CallResult.items? (kind : String) : CallResult → Option (List Item)
  | .failed error => some [.error error]
  | .panicked reason => some [.error (.panicked kind reason)]
  | .opened (.items items) => some items
  | .opened (.endless _ _) => none

namespace Job

variable {env : Environment} {job job' : Job} {t u : Trace} {steps : Nat}
  {call : Environment → Timed Call} {items : List Item}

theorem tells_next {delay : Duration} {state : JobState} (h : (job.next delay state).Tells t job') :
    t = [] ∧ job'.kind = job.kind ∧ job'.state = state := by
  obtain ⟨now, rfl, rfl⟩ := Emission.tells_time h
  exact ⟨rfl, rfl, rfl⟩

theorem tells_failWith {error : QueryError} (h : (job.failWith error).Tells t job') :
    (t = [] ∨ t = [.fail error]) ∧ job'.state = .ended := by
  obtain ⟨rfl, rfl⟩ | ⟨_, rfl, rfl, rfl⟩ := Emission.tells_reportIfHeard h
  · exact ⟨.inl rfl, rfl⟩
  · exact ⟨.inr rfl, rfl⟩

/-- A job makes its call in silence, unless its consumer is gone. -/
theorem tells_step_waiting (hState : job.state = .waiting call) (h : (job.step env).Tells t job') :
    t = [] ∧ (job'.state = .ended ∨
      job'.kind = job.kind ∧ ∃ clock, job'.state = .called (call env clock).1.result) := by
  simp only [step, hState] at h
  obtain ⟨gone, hRest⟩ := Emission.tells_isGone h
  cases gone with
  | true =>
      obtain ⟨rfl, rfl⟩ := hRest
      exact ⟨rfl, .inl rfl⟩
  | false =>
      obtain ⟨clock, hNext⟩ := Emission.tells_timed hRest
      obtain ⟨rfl, hKind, hNow⟩ := tells_next hNext
      exact ⟨rfl, .inr ⟨hKind, clock, hNow⟩⟩

/-- What one step can do about the items that are left. -/
inductive HandsOn : List Item → Trace → JobState → Prop where
  | stopped (rest : List Item) : HandsOn rest [] .ended
  | ended : HandsOn [] [.finish] .ended
  | accepted (row : Solution) (rest : List Item) :
      HandsOn (.ok row :: rest) [.row row true] (.called (.opened (.items rest)))
  | refused (row : Solution) (rest : List Item) : HandsOn (.ok row :: rest) [.row row false] .ended
  | failed (error : QueryError) (rest : List Item) : HandsOn (.error error :: rest) [.fail error] .ended

theorem handsOn_failWith {error : QueryError} (h : (job.failWith error).Tells t job')
    (rest : List Item) : HandsOn (.error error :: rest) t job'.state := by
  obtain ⟨rfl | rfl, hState⟩ := tells_failWith h
  · rw [hState]
    exact .stopped _
  · rw [hState]
    exact .failed error rest

theorem handsOn_handOver (h : (job.handOver (.items items)).Tells t job') :
    HandsOn items t job'.state := by
  cases items with
  | nil =>
      obtain ⟨_, rfl, rfl, rfl⟩ := Emission.tells_finished h
      exact .ended
  | cons item rest =>
      cases item with
      | error error => exact handsOn_failWith h rest
      | ok row =>
          obtain ⟨more, u, rfl, hRest⟩ := Emission.tells_push h
          cases more with
          | false =>
              obtain ⟨rfl, rfl⟩ := hRest
              exact .refused row rest
          | true =>
              obtain ⟨rfl, -, hState⟩ := tells_next hRest
              rw [hState]
              exact .accepted row rest

/-- After its call, a job hands on the items that come of it. -/
theorem tells_step_called {result : CallResult} (hState : job.state = .called result)
    (hItems : result.items? job.kind = some items) (h : (job.step env).Tells t job') :
    HandsOn items t job'.state := by
  simp only [step, hState] at h
  cases result with
  | failed error =>
      obtain rfl := Option.some.inj hItems
      exact handsOn_failWith h []
  | panicked reason =>
      obtain rfl := Option.some.inj hItems
      exact handsOn_failWith h []
  | opened sequence =>
      cases sequence with
      | endless row next => exact absurd hItems (Option.some_ne_none _).symm
      | items given =>
          obtain rfl := Option.some.inj hItems
          obtain ⟨gone, hRest⟩ := Emission.tells_isGone h
          cases gone with
          | true =>
              obtain ⟨rfl, rfl⟩ := hRest
              exact .stopped _
          | false => exact handsOn_handOver hRest

/-- What a job has done after so many steps, if these items come of its call: it waits for the call, it has
handed over some rows and has the other items left, or it is over. -/
inductive Recounts (kind : String) (call : Environment → Timed Call) (items : List Item) :
    Nat → Trace → Job → Prop where
  | waiting {job : Job} (hKind : job.kind = kind) (hState : job.state = .waiting call) :
      Recounts kind call items 0 [] job
  | called {job : Job} {result : CallResult} {given : List Solution} {rest : List Item}
      (hState : job.state = .called result) (hRest : result.items? job.kind = some rest)
      (hItems : items = given.map .ok ++ rest) :
      Recounts kind call items (given.length + 1) (given.map (.row · true)) job
  | ended {job : Job} {steps : Nat} {t : Trace} (hState : job.state = .ended)
      (hSteps : steps ≤ items.length + 2) (hTrace : t.Recounts items) :
      Recounts kind call items steps t job

variable {kind : String}

/-- The stream of a job, in no more steps than there are items to hand over and a call and an end besides. -/
theorem Recounts.bounded (h : job.Recounts kind call items steps t) :
    steps ≤ items.length + 2 ∧ t.Recounts items := by
  cases h with
  | waiting => exact ⟨Nat.zero_le _, Trace.recounts_nil items⟩
  | called hState hRest hItems =>
      refine ⟨?_, .going hItems⟩
      rw [hItems, List.length_append, List.length_map]
      omega
  | ended hState hSteps hTrace => exact ⟨hSteps, hTrace⟩

/-- Each step of a live job goes on with the items. -/
theorem Recounts.step (hCall : ∀ clock, (call env clock).1.result.items? kind = some items)
    (h : job.Recounts kind call items steps t) (hLive : job.isEnded = false)
    (hTells : (job.step env).Tells u job') : job'.Recounts kind call items (steps + 1) (t ++ u) := by
  cases h with
  | ended hState => simp [isEnded, hState] at hLive
  | waiting hKind hState =>
      obtain ⟨rfl, hEnded | ⟨hSame, clock, hNow⟩⟩ := tells_step_waiting hState hTells
      · exact .ended hEnded (by omega) (Trace.recounts_nil items)
      · apply @Recounts.called kind call items job' _ [] items hNow _ rfl
        rw [hSame, hKind]
        exact hCall clock
  | @called _ result given rest hState hRest hItems =>
      -- By what the step does about the items that are left: either the first of them joins the given
      -- rows, or the job is over, and then nothing more is asked about its items.
      have hHandsOn := tells_step_called hState hRest hTells
      have hLength : items.length = given.length + rest.length := by
        rw [hItems, List.length_append, List.length_map]
      generalize hNow : job'.state = state at hHandsOn
      cases hHandsOn with
      | stopped =>
          rw [List.append_nil]
          exact .ended hNow (by omega) (.going hItems)
      | ended => exact .ended hNow (by omega) (hItems ▸ Trace.recounts_append given [])
      | accepted row rest =>
          have hMore : items = (given ++ [row]).map .ok ++ rest := by simp [hItems]
          have hNext : job'.Recounts kind call items _ _ := .called hNow rfl hMore
          simpa using hNext
      | refused row rest => exact .ended hNow (by omega) (.refused hItems)
      | failed error rest =>
          exact .ended hNow (by omega) (hItems ▸ Trace.recounts_append given (.error error :: rest))

end Job

namespace Process

variable {env : Environment} {steps : Nat} {t : Trace} {p : Process} {items : List Item}

/-- Whatever its consumer does, all that a start makes heard is a stream of these items; and to a consumer
that is there it says so in no more than a step for each of them, for its call and for its end. -/
structure Recounting (env : Environment) (start : Emission Process) (items : List Item) : Prop where
  heard : ∀ {t p}, Execution env start t p → t.Recounts items
  bounded : ∀ {steps t p}, Run env start steps t p → steps ≤ items.length + 2

/-- What holds of a job that waits for its call, and is kept by its steps, holds in all executions. -/
theorem job_of_execution (holds : Trace → Job → Prop) {kind : String}
    {call : Environment → Timed Call} (hStart : ∀ now, holds [] ⟨kind, now, .waiting call⟩)
    (hStep : ∀ {t u job job'}, holds t job → job.isEnded = false →
      (job.step env).Tells u job' → holds (t ++ u) job')
    (execution : Execution env (calling kind call) t p) : ∃ job, p = .leaf job ∧ holds t job := by
  induction execution with
  | start hTells =>
      obtain ⟨now, rfl, rfl⟩ := Emission.tells_time hTells
      exact ⟨_, rfl, hStart now⟩
  | step prior hLive last ih =>
      rename_i path
      obtain ⟨job, rfl, hHolds⟩ := ih
      have hGoing : job.isEnded = false := by
        cases path with
        | nil => exact hLive
        | cons k path => exact absurd hLive (by simp [Live])
      obtain ⟨_, job', _, hTells, ⟨rfl, rfl⟩, rfl⟩ := Emission.tells_bind last
      rw [List.append_nil]
      exact ⟨job', rfl, hStep hHolds hGoing hTells⟩

/-- A leaf recounts the items that come of its call. -/
theorem recounting_calling {kind : String} {call : Environment → Timed Call}
    (hCall : ∀ clock, (call env clock).1.result.items? kind = some items) :
    Recounting env (calling kind call) items := by
  constructor
  · intro t p execution
    obtain ⟨job, -, steps, hRecounts⟩ := job_of_execution
      (fun t job => ∃ steps, job.Recounts kind call items steps t)
      (fun now => ⟨0, .waiting rfl rfl⟩)
      (fun ⟨steps, hBefore⟩ hLive hTells => ⟨steps + 1, hBefore.step hCall hLive hTells⟩) execution
    exact hRecounts.bounded.2
  · intro steps t p run
    obtain ⟨job, -, hRecounts⟩ := job_of_run
      (fun steps t job => job.Recounts kind call items steps t) (fun now => .waiting rfl rfl)
      (fun hBefore hLive hSays => hBefore.step hCall hLive hSays.tells) run
    exact hRecounts.bounded.1

/-- A source of one row recounts this row. -/
theorem recounting_single (row : Solution) : Recounting env (single row) [.ok row] := by
  have hSingle : ∀ {t p}, (single row).Tells t p → p = .idle ∧ t.Recounts [.ok row] := by
    intro t p hTells
    obtain ⟨more, u, rfl, hRest⟩ := Emission.tells_push hTells
    cases more with
    | true =>
        obtain ⟨_, rfl, rfl, rfl⟩ := Emission.tells_finished hRest
        exact ⟨rfl, .whole⟩
    | false =>
        obtain ⟨rfl, rfl⟩ := hRest
        have hFirst : ([.ok row] : List Item) = ([] : List Solution).map .ok ++ [.ok row] := rfl
        exact ⟨rfl, .refused hFirst⟩
  constructor
  · intro t p execution
    exact (hSingle (execution.of_idle fun hTells => (hSingle hTells).1)).2
  · intro steps t p run
    obtain ⟨rfl, -⟩ := run.of_idle fun hSays => (says_single hSays).1
    exact Nat.zero_le _

end Process

namespace Leaf

/-- The items that a silent service has to hand over: the seed alone, if there is no endpoint or if the
call fails, and otherwise what comes of the call. -/
def silentItems? (caller : ServiceCaller) (endpoint : Option Term) (arg : Plan) (seed : Solution) :
    Option (List Item) :=
  match endpoint with
  | none => some [.ok seed]
  | some term =>
    match (caller term arg seed).result with
    | .failed _ => some [.ok seed]
    | result => result.items? "Service"

/-- In place of a failed call there is the seed, and only there. -/
theorem items_orSeed (call : Call) (seed : Solution) (kind : String) :
    (call.orSeed seed).result.items? kind =
      match call.result with
      | .failed _ => some [.ok seed]
      | result => result.items? kind := by
  obtain ⟨result, delay⟩ := call
  cases result with
  | failed error => rfl
  | panicked reason => rfl
  | opened sequence => rfl

theorem items_service {caller : ServiceCaller} {term : Term} {arg : Plan} {seed : Solution}
    {items : List Item} (h : silentItems? caller (some term) arg seed = some items) :
    (Leaf.service caller term arg true seed).result.items? "Service" = some items := by
  rw [Leaf.service, if_pos rfl, items_orSeed]
  exact h

end Leaf

namespace Process.Recounting

variable {env : Environment} {plan : Plan} {seed : Solution} {scope : Scope} {items : List Item}
  {steps : Nat} {t : Trace} {p : Process}

/-- When no job is left, a consumer that accepts all rows has heard all. -/
theorem finished (h : Recounting env (plan.start env seed scope) items)
    (run : Run env (plan.start env seed scope) steps t p) (hRefused : t.refused = false)
    (hFinished : p.Finished) : t = .ofItems items :=
  (h.heard run.execution).eq_of_isOver ((plan.keeps run).settled hFinished) hRefused

theorem exists_finished (h : Recounting env (plan.start env seed scope) items) :
    ∃ steps t p, Run env (plan.start env seed scope) steps t p ∧ t.refused = false ∧ p.Finished :=
  Plan.exists_finished fun run _ => h.bounded run

/-- Nobody ever hears of a failure exactly if there is none among the items. -/
theorem unfailed_iff (h : Recounting env (plan.start env seed scope) items) :
    (∀ t p, Execution env (plan.start env seed scope) t p → t.failed = false) ↔
      ∀ item ∈ items, item.isOk = true := by
  constructor
  · intro hNever
    obtain ⟨steps, t, p, run, hRefused, hFinished⟩ := h.exists_finished
    rw [← Trace.failed_ofItems, ← h.finished run hRefused hFinished]
    exact hNever t p run.execution
  · intro hItems t p execution
    exact (h.heard execution).unfailed hItems

/-- And exactly then one end is heard whenever all rows are accepted. -/
theorem ends_iff (h : Recounting env (plan.start env seed scope) items) :
    (∀ steps t p, Run env (plan.start env seed scope) steps t p → t.refused = false → p.Finished →
      t.ends = 1) ↔ ∀ item ∈ items, item.isOk = true := by
  constructor
  · intro hAlways
    obtain ⟨steps, t, p, run, hRefused, hFinished⟩ := h.exists_finished
    rw [← Trace.ends_ofItems, ← h.finished run hRefused hFinished]
    exact hAlways steps t p run hRefused hFinished
  · intro hItems steps t p run hRefused hFinished
    rw [h.finished run hRefused hFinished]
    exact Trace.ends_ofItems.mpr hItems

end Process.Recounting

namespace Plan

open Process

variable {env : Environment} {caller : ServiceCaller} {endpoint : Slot} {arg : Plan} {seed : Solution}
  {scope : Scope} {items : List Item}

theorem recounting_silent_service (hCaller : env.service = some caller)
    (hItems : Leaf.silentItems? caller (endpoint.resolve seed) arg seed = some items) :
    Recounting env ((Plan.service endpoint arg true).start env seed scope) items := by
  rw [start, Process.service, hCaller]
  cases hResolved : endpoint.resolve seed with
  | none =>
      rw [hResolved] at hItems
      obtain rfl := Option.some.inj hItems
      exact recounting_single seed
  | some term =>
      rw [hResolved] at hItems
      exact recounting_calling fun clock => Leaf.items_service hItems

/-- A silent service hands over its items, whatever its consumer does, and comes to an end. If an endpoint
is missing or the call fails, nothing of it is heard, as the seed is the only item. But a failure among the
elements of a sequence is reported, and no end comes behind it: exactly if there is no such element, no
failure is ever reported, and exactly then each stream that is not refused a row has one end. -/
theorem silent_service_recounts (hCaller : env.service = some caller)
    (hItems : Leaf.silentItems? caller (endpoint.resolve seed) arg seed = some items) :
    let start := (Plan.service endpoint arg true).start env seed scope
    (∀ t p, Execution env start t p → t.Recounts items) ∧
      (∀ steps t p, Run env start steps t p → steps ≤ items.length + 2) ∧
      (∃ steps t p, Run env start steps t p ∧ t.refused = false ∧ p.Finished) ∧
      (∀ steps t p, Run env start steps t p → t.refused = false → p.Finished → t = .ofItems items) ∧
      ((∀ t p, Execution env start t p → t.failed = false) ↔ ∀ item ∈ items, item.isOk = true) ∧
      ((∀ steps t p, Run env start steps t p → t.refused = false → p.Finished → t.ends = 1) ↔
        ∀ item ∈ items, item.isOk = true) := by
  intro start
  have hRecounting : Recounting env start items := recounting_silent_service hCaller hItems
  have hAll : ∀ steps t p, Run env start steps t p → t.refused = false → p.Finished →
      t = .ofItems items := by
    intro steps t p run hRefused hFinished
    apply hRecounting.finished run hRefused hFinished
  exact ⟨fun _ _ => hRecounting.heard, fun _ _ _ => hRecounting.bounded, hRecounting.exists_finished, hAll,
    hRecounting.unfailed_iff, hRecounting.ends_iff⟩

/-- What a query works with whose only service answers each call alike. -/
def onlyService (result : CallResult) : Environment :=
  { Environment.ofDataset .empty with service := some fun _ _ _ => .immediate result }

/-- The endpoint of a service that is known by its name. -/
def namedEndpoint : Slot := ⟨"endpoint", some (.iri "e")⟩

/-- A call that fails is not heard of: there is one row, the seed, and one end. -/
theorem silent_service_recounts_seed :
    let env : Environment := onlyService (.failed (.evaluation "lost"))
    let start := (Plan.service namedEndpoint .singleton true).start env .empty .root
    ∃ steps t p, Run env start steps t p ∧ t = [.row .empty true, .finish] := by
  intro env start
  obtain ⟨-, -, ⟨steps, t, p, run, hRefused, hFinished⟩, hAll, -⟩ :=
    @silent_service_recounts env _ namedEndpoint .singleton .empty .root [.ok .empty] rfl rfl
  exact ⟨steps, t, p, run, hAll steps t p run hRefused hFinished⟩

/-- A sequence that fails behind its first row is heard of, and has no end. -/
theorem silent_service_reports :
    ¬∀ (env : Environment) (caller : ServiceCaller) (endpoint : Slot) (arg : Plan) (seed : Solution)
        (scope : Scope) (steps : Nat) (t : Trace) (p : Process),
        env.service = some caller →
          (∀ term, (∃ error, (caller term arg seed).result = .failed error) ∨
            ∃ (rows : List Solution) (failure : Option QueryError),
              (caller term arg seed).result =
                .opened (.items (rows.map .ok ++ failure.toList.map .error))) →
          Run env ((Plan.service endpoint arg true).start env seed scope) steps t p →
            t.refused = false → p.Finished → t.failed = false ∧ t.ends = 1 := by
  intro hNever
  let lost : QueryError := .evaluation "lost"
  let env : Environment := onlyService (.opened (.items [.ok .empty, .error lost]))
  let start := (Plan.service namedEndpoint .singleton true).start env .empty .root
  have first : Run env start 0 [] _ := .start ⟨.starting 0, rfl, rfl⟩
  have called : Run env start 1 [] _ :=
    first.step (show Process.Live _ [] from rfl) ⟨.starting 0, .starting 0, rfl, rfl⟩
  have given : Run env start 2 [.row .empty true] _ :=
    called.step (show Process.Live _ [] from rfl) ⟨true, _, rfl, .starting 0, rfl, rfl⟩
  have run : Run env start 3 [.row .empty true, .fail lost] _ :=
    given.step (show Process.Live _ [] from rfl) ⟨_, rfl, rfl, rfl⟩
  have hBehaves : (CallResult.opened (.items [.ok .empty, .error lost])) =
      .opened (.items ([Solution.empty].map .ok ++ (some lost).toList.map .error)) := rfl
  have hFailed := (hNever env _ namedEndpoint .singleton .empty .root _ _ _ rfl
    (fun _ => .inr ⟨[.empty], some lost, hBehaves⟩) run rfl (finished_leaf.mpr rfl)).1
  exact Bool.noConfusion hFailed

end Plan

end SolutionFlow
