import SolutionFlow.Evaluation
import SolutionFlow.Proofs.Flow.Trace

/-! Runs of queries. A run starts a process and then lets one of its live jobs make a step, again and
again, in any order; its trace is what the consumer of the query has received, whatever it has
replied. To start a plan is one step: whatever it says without a job, as singletons, empty plans and paths
of length zero between two fixed ends do, comes before all that a job started with it says. In a run whoever
looks at the clock may see anything; in a timed run each finds the clock as the one before has left it. What
`Evaluation.push` does with a recorder that accepts everything is one of these runs. -/
namespace SolutionFlow

namespace Emission

variable {α : Type} {clock last : Clock} {t : Trace} {v : α}

/-- An emission can say `t` to a consumer that is not gone, and leave a value behind, while it turns one
clock into another. -/
def SaysFrom : Emission α → Clock → Trace → α → Clock → Prop
  | .done value, clock, t, v, last => t = [] ∧ v = value ∧ last = clock
  | .emit row next, clock, t, v, last =>
    ∃ more u, t = .row row more :: u ∧ (next more).SaysFrom clock u v last
  | .finish next, clock, t, v, last => ∃ u, t = .finish :: u ∧ next.SaysFrom clock u v last
  | .fail error next, clock, t, v, last => ∃ u, t = .fail error :: u ∧ next.SaysFrom clock u v last
  | .probe next, clock, t, v, last => (next false).SaysFrom clock t v last
  | .consult next, clock, t, v, last => (next clock).SaysFrom clock t v last
  | .adjust later next, _, t, v, last => next.SaysFrom later t v last

theorem SaysFrom.untimed {e : Emission α} (h : e.SaysFrom clock t v last) : e.Says t v := by
  induction e generalizing clock t with
  | done value => exact ⟨h.1, h.2.1⟩
  | emit row next ih =>
      obtain ⟨more, u, rfl, hRest⟩ := h
      exact ⟨more, u, rfl, ih more hRest⟩
  | finish next ih =>
      obtain ⟨u, rfl, hRest⟩ := h
      exact ⟨u, rfl, ih hRest⟩
  | fail error next ih =>
      obtain ⟨u, rfl, hRest⟩ := h
      exact ⟨u, rfl, ih hRest⟩
  | probe next ih => exact ih false h
  | consult next ih => exact ⟨clock, ih clock h⟩
  | adjust later next ih => exact ih h

end Emission

namespace Process

/-- A path leads to a job that has not ended. -/
def Live : Process → List Nat → Prop
  | .leaf job, [] => job.isEnded = false
  | .node _ children, k :: path => ∃ child, children[k]? = some child ∧ child.Live path
  | _, _ => False

/-- No job is left that could make a step. -/
def Finished (p : Process) : Prop := ∀ path, ¬p.Live path

@[simp]
theorem finished_idle : Finished .idle := by
  intro path h
  cases path <;> exact h

@[simp]
theorem finished_leaf {job : Job} : Finished (.leaf job) ↔ job.isEnded = true := by
  constructor
  · intro h
    simpa [Live] using h []
  · intro hEnded path h
    cases path with
    | nil => simp [Live, hEnded] at h
    | cons k path => exact h

@[simp]
theorem finished_node {op : Operator} {children : List Process} :
    Finished (.node op children) ↔ ∀ child ∈ children, child.Finished := by
  constructor
  · intro h child hMem path hLive
    obtain ⟨k, hGet⟩ := List.mem_iff_getElem?.mp hMem
    exact h (k :: path) ⟨child, hGet, hLive⟩
  · intro h path hLive
    cases path with
    | nil => exact hLive
    | cons k path =>
        obtain ⟨child, hGet, hChild⟩ := hLive
        exact h child (List.mem_of_getElem? hGet) path hChild

theorem deliverAt_eq (env : Environment) (children : List Process) (k : Nat) (path : List Nat) :
    deliverAt env children k path = children[k]?.map fun child => child.deliver env path := by
  induction children generalizing k with
  | nil => simp [deliverAt]
  | cons child rest ih =>
      cases k with
      | zero => simp [deliverAt]
      | succ k => simpa [deliverAt] using ih k

/-- A step below the first child is answered by the lead of the operator. -/
theorem deliver_lead (env : Environment) (op : Operator) (child : Process)
    (rest : List Process) (path : List Nat) :
    (Process.node op (child :: rest)).deliver env (0 :: path) = (do
      let (child, op, opened) ←
        (Operator.lead env (op.spawn env)).through (op, []) (child.deliver env path)
      return .node op (child :: rest ++ opened)) := by
  simp [deliver, deliverAt_eq]

/-- A step below another child is answered by the pipe of its branch. -/
theorem deliver_branch (env : Environment) (op : Operator) {children : List Process} {k : Nat}
    {child : Process} (hGet : children[k + 1]? = some child) (path : List Nat) :
    (Process.node op children).deliver env ((k + 1) :: path) = (do
      let (child, op) ← (Operator.pipe env k).through op (child.deliver env path)
      return .node op (children.set (k + 1) child)) := by
  simp [deliver, deliverAt_eq, hGet]

end Process

/-- What a query works with that has a store and nobody else to ask. -/
def Environment.ofDataset (d : Dataset) : Environment where
  dataset := d
  spill := .standard
  group := none
  describe := none
  service := none
  path := none
  firstSolution _ _ _ := return .ok none
  allItems _ _ _ := return []

/-- A process that comes of `start` can have made so many steps and said `t` to a consumer that is
there. -/
inductive Run (env : Environment) (start : Emission Process) : Nat → Trace → Process → Prop where
  | start {t : Trace} {p : Process} (first : start.Says t p) : Run env start 0 t p
  | step {steps : Nat} {t u : Trace} {p q : Process} {path : List Nat}
      (prior : Run env start steps t p) (hLive : p.Live path)
      (last : (p.deliver env path).Says u q) : Run env start (steps + 1) (t ++ u) q

/-- A run on one clock, that goes from its first state to its last one. While no job makes a step, time may
go on, but the time of the query stays. -/
inductive TimedRun (env : Environment) (start : Emission Process) (first : Clock) :
    Nat → Trace → Process → Clock → Prop where
  | start {t : Trace} {p : Process} {last : Clock} (heard : start.SaysFrom first t p last) :
      TimedRun env start first 0 t p last
  | step {steps : Nat} {t u : Trace} {p q : Process} {path : List Nat} {clock later last : Clock}
      (prior : TimedRun env start first steps t p clock) (hLive : p.Live path)
      (hSame : later.queryTime = clock.queryTime)
      (heard : (p.deliver env path).SaysFrom later u q last) :
      TimedRun env start first (steps + 1) (t ++ u) q last

theorem TimedRun.run {env : Environment} {start : Emission Process} {first last : Clock} {steps : Nat}
    {t : Trace} {p : Process} (h : TimedRun env start first steps t p last) :
    Run env start steps t p := by
  induction h with
  | start heard => exact .start heard.untimed
  | step prior hLive hSame heard ih => exact ih.step hLive heard.untimed

/-- A start that can say no more than another has no more runs. -/
theorem Run.of_says {env : Environment} {first other : Emission Process} {steps : Nat} {t : Trace}
    {p : Process} (hSays : ∀ {t p}, first.Says t p → other.Says t p) (run : Run env first steps t p) :
    Run env other steps t p := by
  induction run with
  | start hFirst => exact .start (hSays hFirst)
  | step prior hLive last ih => exact ih.step hLive last

/-- Nothing comes of a start that leaves no job. -/
theorem Run.of_idle {env : Environment} {first : Emission Process} {steps : Nat} {t : Trace}
    {p : Process} (hIdle : ∀ {t p}, first.Says t p → p = .idle) (run : Run env first steps t p) :
    steps = 0 ∧ first.Says t p := by
  induction run with
  | start hSays => exact ⟨rfl, hSays⟩
  | step prior hLive last ih =>
      rename_i path
      rw [hIdle ih.2] at hLive
      exact absurd hLive (Process.finished_idle path)

namespace Process

theorem Appointment.earlier_eq_none {a b : Option Appointment} :
    Appointment.earlier a b = none ↔ a = none ∧ b = none := by
  cases a <;> cases b <;> simp [Appointment.earlier]
  split <;> simp

theorem Appointment.earlier_eq_some {a b : Option Appointment} {c : Appointment}
    (h : Appointment.earlier a b = some c) : a = some c ∨ b = some c := by
  cases a with
  | none => exact .inr h
  | some x =>
      cases b with
      | none => exact .inl h
      | some y =>
          simp only [Appointment.earlier] at h
          split at h
          · exact .inl h
          · exact .inr h

mutual

/-- The first job is a live one. -/
theorem live_of_earliest {a : Appointment} :
    (p : Process) → p.earliest = some a → p.Live a.path
  | .idle, h => by simp [earliest] at h
  | .leaf job, h => by
    simp only [earliest, Option.ite_none_left_eq_some, Option.some.injEq] at h
    obtain ⟨hEnded, rfl⟩ := h
    simpa [Live] using hEnded
  | .node op children, h => by
    obtain ⟨k, path, child, hPath, hGet, hLive⟩ := live_of_earliestOf children h
    rw [hPath]
    exact ⟨child, by simpa using hGet, hLive⟩

theorem live_of_earliestOf {first : Nat} {a : Appointment} :
    (children : List Process) → earliestOf first children = some a →
      ∃ k path child, a.path = (first + k) :: path ∧ children[k]? = some child ∧ child.Live path
  | [], h => by simp [earliestOf] at h
  | child :: rest, h => by
    rw [earliestOf] at h
    rcases Appointment.earlier_eq_some h with h | h
    · obtain ⟨b, hChild, rfl⟩ := Option.map_eq_some_iff.mp h
      exact ⟨0, b.path, child, rfl, rfl, live_of_earliest child hChild⟩
    · obtain ⟨k, path, other, hPath, hGet, hLive⟩ := live_of_earliestOf rest h
      exact ⟨k + 1, path, other, by rw [hPath]; congr 1; omega, by simpa using hGet, hLive⟩

end

mutual

/-- Without a first job no job is left. -/
theorem finished_of_earliest : (p : Process) → p.earliest = none → p.Finished
  | .idle, _ => finished_idle
  | .leaf job, h => by
    cases hEnded : job.isEnded with
    | true => exact finished_leaf.mpr hEnded
    | false => simp [earliest, hEnded] at h
  | .node op children, h => finished_node.mpr (finished_of_earliestOf children h)

theorem finished_of_earliestOf {first : Nat} :
    (children : List Process) → earliestOf first children = none →
      ∀ child ∈ children, child.Finished
  | [], _ => by simp
  | child :: rest, h => by
    rw [earliestOf, Appointment.earlier_eq_none, Option.map_eq_none_iff] at h
    intro other hMem
    rcases List.mem_cons.mp hMem with hEq | hRest
    · rw [hEq]
      exact finished_of_earliest child h.1
    · exact finished_of_earliestOf rest h.2 other hRest

end

end Process

namespace Trace

/-- How often a stream has ended. -/
def ends (t : Trace) : Nat := t.countP Event.isFinish

theorem ends_eq_zero_iff {t : Trace} : t.ends = 0 ↔ t.ended = false := by
  rw [ends, List.countP_eq_zero, ended, List.any_eq_false]

def failures (t : Trace) : List QueryError :=
  t.filterMap fun
    | .fail error => some error
    | _ => none

theorem failures_eq_nil_iff {t : Trace} : t.failures = [] ↔ t.failed = false := by
  rw [failures, List.filterMap_eq_nil_iff, failed, List.any_eq_false]
  refine forall₂_congr fun e _ => ?_
  cases e <;> simp

end Trace

namespace Recorder

/-- Accepts everything and is always there. -/
def IsOpen (r : Recorder) : Prop := r.refuseAfter = none ∧ r.goneAfter = none

/-- A recorder after it has been told a trace. -/
def hear (r : Recorder) (t : Trace) : Recorder :=
  { r with
    rows := t.accepted.reverse ++ r.rows
    ends := r.ends + t.ends
    errors := t.failures.reverse ++ r.errors }

theorem isOpen_new : (Recorder.new none none).IsOpen := ⟨rfl, rfl⟩

theorem hear_append (r : Recorder) (t u : Trace) : r.hear (t ++ u) = (r.hear t).hear u := by
  simp [hear, Trace.ends, Trace.failures, Nat.add_assoc]

theorem IsOpen.hear {r : Recorder} (h : r.IsOpen) (t : Trace) : (r.hear t).IsOpen := h

theorem IsOpen.reached {r : Recorder} (h : r.IsOpen) :
    r.reached r.refuseAfter = false ∧ r.reached r.goneAfter = false := by
  simp [Recorder.reached, h.1, h.2]

end Recorder

namespace Emission

variable {α : Type}

/-- What an emission says to an open recorder is one of the traces that it can leave, on the clock that it
finds. -/
theorem saysFrom_of_deliver (e : Emission α) (clock : Clock) {r : Recorder} (hOpen : r.IsOpen) :
    ∃ t, e.SaysFrom clock t (e.deliver Recorder.consumer (clock, r)).1
        (e.deliver Recorder.consumer (clock, r)).2.1 ∧
      t.refused = false ∧ (e.deliver Recorder.consumer (clock, r)).2.2 = r.hear t := by
  induction e generalizing clock r with
  | done value => exact ⟨[], ⟨rfl, rfl, rfl⟩, rfl, rfl⟩
  | emit row next ih =>
      have hReply : (Recorder.consumer.row r row).1 = true := by
        simp [Recorder.consumer, Recorder.reached, hOpen.1]
      obtain ⟨t, hSays, hRefused, hHeard⟩ := ih true clock (hOpen.hear [.row row true])
      refine ⟨.row row true :: t, ⟨true, t, rfl, ?_⟩, by simpa using hRefused, ?_⟩
      · rw [deliver, hReply]
        exact hSays
      · rw [deliver, hReply]
        exact hHeard.trans (r.hear_append [.row row true] t).symm
  | finish next ih =>
      obtain ⟨t, hSays, hRefused, hHeard⟩ := ih clock (hOpen.hear [.finish])
      exact ⟨.finish :: t, ⟨t, rfl, hSays⟩, by simpa using hRefused,
        hHeard.trans (r.hear_append [.finish] t).symm⟩
  | fail error next ih =>
      obtain ⟨t, hSays, hRefused, hHeard⟩ := ih clock (hOpen.hear [.fail error])
      exact ⟨.fail error :: t, ⟨t, rfl, hSays⟩, by simpa using hRefused,
        hHeard.trans (r.hear_append [.fail error] t).symm⟩
  | probe next ih =>
      have hGone : Recorder.consumer.gone r = false := hOpen.reached.2
      obtain ⟨t, hSays, hRefused, hHeard⟩ := ih false clock hOpen
      rw [deliver, hGone]
      exact ⟨t, hSays, hRefused, hHeard⟩
  | consult next ih => exact ih clock clock hOpen
  | adjust later next ih => exact ih later hOpen

/-- So it is without a look at the clock. -/
theorem says_of_deliver (e : Emission α) (clock : Clock) {r : Recorder} (hOpen : r.IsOpen) :
    ∃ t, e.Says t (e.deliver Recorder.consumer (clock, r)).1 ∧ t.refused = false ∧
      (e.deliver Recorder.consumer (clock, r)).2.2 = r.hear t := by
  obtain ⟨t, hSays, hRefused, hHeard⟩ := e.saysFrom_of_deliver clock hOpen
  exact ⟨t, hSays.untimed, hRefused, hHeard⟩

end Emission

namespace Evaluation

/-- The steps of the jobs, the earliest first, carry a run on: until no job is left or the patience
is used up. -/
theorem timedRun_of_exhaust {env : Environment} {start : Emission Process} {first last : Clock}
    {steps : Nat} {t : Trace} {p : Process} (run : TimedRun env start first steps t p last)
    (hRefused : t.refused = false) (patience : Nat) (clock : Clock)
    (hClock : clock.queryTime = last.queryTime) :
    ∃ more u q final, TimedRun env start first more u q final ∧ u.refused = false ∧
      (exhaust env Recorder.consumer patience p (clock, (Recorder.new none none).hear t)).2 =
        (Recorder.new none none).hear u ∧
      (exhaust env Recorder.consumer patience p
        (clock, (Recorder.new none none).hear t)).1.queryTime = final.queryTime ∧
      (q.Finished ∨ more = steps + patience) := by
  induction patience generalizing steps t p last clock with
  | zero => exact ⟨steps, t, p, last, run, hRefused, rfl, hClock, .inr rfl⟩
  | succ patience ih =>
      rw [exhaust]
      cases hEarliest : p.earliest with
      | none =>
          exact ⟨steps, t, p, last, run, hRefused, rfl, hClock,
            .inl (Process.finished_of_earliest p hEarliest)⟩
      | some appointment =>
          have hOpen := Recorder.isOpen_new.hear t
          obtain ⟨u, hSays, hNone, hHeard⟩ := Emission.saysFrom_of_deliver
            (p.deliver env appointment.path) { clock with time := appointment.time } hOpen
          dsimp only
          generalize (p.deliver env appointment.path).deliver Recorder.consumer
            ({ clock with time := appointment.time }, (Recorder.new none none).hear t) = result
            at hSays hHeard ⊢
          obtain ⟨q, after, r⟩ := result
          obtain rfl : r = _ := hHeard
          have hStill : { clock with time := appointment.time }.queryTime = last.queryTime := hClock
          have next := run.step (Process.live_of_earliest p hEarliest) hStill hSays
          have hBoth : Trace.refused (t ++ u) = false := by simp [hRefused, hNone]
          dsimp only
          rw [← Recorder.hear_append]
          obtain ⟨more, v, q, final, hRun, hV, hResult, hFinal, hEnd⟩ :=
            ih next hBoth { after with time := max clock.time after.time } rfl
          exact ⟨more, v, q, final, hRun, hV, hResult, hFinal, hEnd.imp id (by omega)⟩

/-- Any process can be started and then carried on for as many steps as wanted, unless it finishes
before. -/
theorem exists_timedRun (env : Environment) (start : Emission Process) (first : Clock) (count : Nat) :
    ∃ steps t p last, TimedRun env start first steps t p last ∧ t.refused = false ∧
      (p.Finished ∨ steps = count) := by
  obtain ⟨t, hSays, hRefused, -⟩ := start.saysFrom_of_deliver first Recorder.isOpen_new
  obtain ⟨steps, u, p, last, run, hNone, -, -, hEnd⟩ :=
    timedRun_of_exhaust (.start hSays) hRefused count _ rfl
  exact ⟨steps, u, p, last, run, hNone, by simpa using hEnd⟩

/-- Pushing a plan to an open recorder is a run of the plan. -/
theorem timedRun_of_push (e : Evaluation) (plan : Plan) (seed : Solution) (clock : Clock) :
    ∃ steps t p last,
      TimedRun (e.environmentOf plan) (plan.start (e.environmentOf plan) seed .root) clock steps t p
        last ∧
      t.refused = false ∧
      (e.push Recorder.consumer plan seed (clock, Recorder.new none none)).2 =
        (Recorder.new none none).hear t ∧
      (e.push Recorder.consumer plan seed (clock, Recorder.new none none)).1.queryTime =
        last.queryTime ∧
      (p.Finished ∨ steps = e.patience) := by
  obtain ⟨t, hSays, hRefused, hHeard⟩ := Emission.saysFrom_of_deliver
    (plan.start (e.environmentOf plan) seed .root) clock Recorder.isOpen_new
  obtain ⟨steps, u, q, last, hRun, hU, hResult, hLast, hEnd⟩ :=
    timedRun_of_exhaust (.start hSays) hRefused e.patience _ rfl
  rw [← hHeard] at hResult hLast
  exact ⟨steps, u, q, last, hRun, hU, hResult, hLast, by simpa using hEnd⟩

theorem run_of_push (e : Evaluation) (plan : Plan) (seed : Solution) (clock : Clock) :
    ∃ steps t p, Run (e.environmentOf plan) (plan.start (e.environmentOf plan) seed .root) steps t p ∧
      t.refused = false ∧
      (e.push Recorder.consumer plan seed (clock, Recorder.new none none)).2 =
        (Recorder.new none none).hear t ∧
      (p.Finished ∨ steps = e.patience) := by
  obtain ⟨steps, t, p, last, run, hRefused, hResult, -, hEnd⟩ := e.timedRun_of_push plan seed clock
  exact ⟨steps, t, p, run.run, hRefused, hResult, hEnd⟩

end Evaluation

end SolutionFlow
