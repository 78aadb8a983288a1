import Mathlib.Data.List.Induction
import SolutionFlow.Bridge.Basic
import SolutionFlow.Proofs.Flow.Run

/-! Bridges that producers and a reader use at the same time. Each of them takes one action after
another, and anyone else may act in between. A course is any order of such actions; its history holds
what can be told of them from outside. -/
namespace SolutionFlow

/-- Where a producer stands. It goes through an emission; it is about to look whether the bridge is
closed, or to put a delivery in the queue; or it has reported a failure and has still to stop the
others and to call the reader. -/
inductive Producer where
  | saying (rest : Emission Process)
  | pushing (d : Delivery) (next : Bool → Emission Process)
  | sending (d : Delivery) (next : Bool → Emission Process)
  | cancelling (rest : Emission Process)
  | waking (rest : Emission Process)

/-- What can be told of an action of a producer: that it begins a push, how the push ends, that it
reports a failure, and what it has been told about its consumer. -/
inductive Act where
  | inner
  | offered (d : Delivery)
  | accepted (d : Delivery)
  | refused (d : Delivery)
  | noted (error : QueryError)
  | saw (gone : Bool)

namespace Producer

/-- The actions of a producer on a bridge. One whose emission is over goes on with a step of a job of
the process that is left. -/
inductive Moves (env : Environment) : Bridge → Producer → Act → Bridge → Producer → Prop where
  | offerRow {b : Bridge} {row : Solution} {next : Bool → Emission Process} :
      Moves env b (.saying (.emit row next)) (.offered (.row row)) b (.pushing (.row row) next)
  | offerFinish {b : Bridge} {next : Emission Process} :
      Moves env b (.saying (.finish next)) (.offered .finish) b (.pushing .finish fun _ => next)
  | refuse {b : Bridge} {d : Delivery} {next : Bool → Emission Process} (hClosed : b.isClosed = true) :
      Moves env b (.pushing d next) (.refused d) b (.saying (next false))
  | look {b : Bridge} {d : Delivery} {next : Bool → Emission Process} (hOpen : b.isClosed = false) :
      Moves env b (.pushing d next) .inner b (.sending d next)
  | accept {b : Bridge} {d : Delivery} {next : Bool → Emission Process} (hRoom : b.hasRoom = true) :
      Moves env b (.sending d next) (.accepted d) (b.enqueue d) (.saying (next true))
  | retry {b : Bridge} {d : Delivery} {next : Bool → Emission Process} (hFull : b.hasRoom = false) :
      Moves env b (.sending d next) .inner b (.pushing d next)
  | note {b : Bridge} {error : QueryError} {next : Emission Process} :
      Moves env b (.saying (.fail error next)) (.noted error) (b.note error) (.cancelling next)
  | cancel {b : Bridge} {next : Emission Process} :
      Moves env b (.cancelling next) .inner b.cancel (.waking next)
  | wake {b : Bridge} {next : Emission Process} :
      Moves env b (.waking next) .inner b.wake (.saying next)
  | probe {b : Bridge} {next : Bool → Emission Process} :
      Moves env b (.saying (.probe next)) (.saw b.isClosed) b (.saying (next b.isClosed))
  | consult {b : Bridge} {next : Clock → Emission Process} (clock : Clock) :
      Moves env b (.saying (.consult next)) .inner b (.saying (next clock))
  | adjust {b : Bridge} {clock : Clock} {next : Emission Process} :
      Moves env b (.saying (.adjust clock next)) .inner b (.saying next)
  | turn {b : Bridge} {p : Process} {path : List Nat} (hLive : p.Live path) :
      Moves env b (.saying (.done p)) .inner b (.saying (p.deliver env path))

end Producer

/-- What can be told of an action of the reader: that it begins to wait for the next item or to close
the bridge, what it takes from the queue, that it takes the failures, and how its call ends. -/
inductive Glance where
  | inner
  | asked
  | received (d : Option Delivery)
  | took
  | replied (item : Option Item)
  | closing
  | closed

/-- Where the reader stands: at rest, about to look into the queue, with what it has received before
and after it has looked for a failure, or about to stop the producers and to empty the queue before
its call ends as it is going to. -/
inductive Reader where
  | resting
  | looking
  | holding (received : Option Delivery)
  | judging (received : Option Delivery)
  | shutting (last : Glance)
  | draining (last : Glance)

namespace Reader

/-- The actions of the reader on a bridge. -/
inductive Moves : Bridge → Reader → Glance → Bridge → Reader → Prop where
  | ask {b : Bridge} : Moves b .resting .asked b .looking
  | closed {b : Bridge} (hFinished : b.finished = true) : Moves b .looking (.replied none) b .resting
  | receive {b : Bridge} (hOpen : b.finished = false) :
      Moves b .looking (.received b.dequeue.1) b.dequeue.2 (.holding b.dequeue.1)
  | take {b : Bridge} {d : Option Delivery} {error : QueryError} (hError : b.takeError.1 = some error) :
      Moves b (.holding d) .took { b.takeError.2 with finished := true }
        (.shutting (.replied (some (.error error))))
  | pass {b : Bridge} {d : Option Delivery} (hNone : b.first = none) :
      Moves b (.holding d) .inner b (.judging d)
  | give {b : Bridge} {row : Solution} :
      Moves b (.judging (some (.row row))) (.replied (some (.ok row))) b .resting
  | finish {b : Bridge} :
      Moves b (.judging (some .finish)) .inner { b with finished := true } (.shutting (.replied none))
  | again {b : Bridge} {d : Option Delivery} (hNothing : d = none ∨ d = some .wake) :
      Moves b (.judging d) .inner b .looking
  | close {b : Bridge} :
      Moves b .resting .closing { b with finished := true } (.shutting .closed)
  | cancel {b : Bridge} {last : Glance} : Moves b (.shutting last) .inner b.cancel (.draining last)
  | drop {b : Bridge} {last : Glance} (hSome : b.queue ≠ []) :
      Moves b (.draining last) .inner b.dequeue.2 (.draining last)
  | leave {b : Bridge} {last : Glance} (hEmpty : b.queue = []) :
      Moves b (.draining last) last b .resting

end Reader

namespace Reader

/-- The reader takes some actions, and nobody else acts in between. -/
inductive Runs : Bridge → Reader → List Glance → Bridge → Reader → Prop where
  | rest {b : Bridge} {r : Reader} : Runs b r [] b r
  | step {b b' b'' : Bridge} {r r' r'' : Reader} {glance : Glance} {glances : List Glance}
      (first : r.Moves b glance b' r') (later : Runs b' r' glances b'' r'') :
      Runs b r (glance :: glances) b'' r''

/-- Left to itself the reader can go on until its call ends like this. -/
def Leads (b : Bridge) (r : Reader) (last : Glance) : Prop :=
  ∃ glances b', Runs b r (glances ++ [last]) b' .resting

variable {b b' : Bridge} {r r' : Reader} {glance last : Glance}

theorem Leads.of_move (move : r.Moves b glance b' r') (h : Leads b' r' last) : Leads b r last := by
  obtain ⟨glances, b'', hRuns⟩ := h
  exact ⟨glance :: glances, b'', .step move hRuns⟩

theorem leads_of_last (move : r.Moves b last b' .resting) : Leads b r last :=
  ⟨[], b', .step move .rest⟩

/-- A reader that has stopped the producers takes all that waits before its call ends. -/
theorem runs_draining (last : Glance) (b : Bridge) :
    Runs b (.draining last) (List.replicate b.queue.length .inner ++ [last]) { b with queue := [] }
      .resting := by
  obtain ⟨capacity, queue, cancelled, outerClosed, first, later, finished⟩ := b
  induction queue with
  | nil => exact .step (.leave rfl) .rest
  | cons d rest ih => exact .step (.drop nofun) ih

/-- Once the stream is over for it, the reader closes the bridge, and its call ends. -/
theorem runs_shutting (last : Glance) (b : Bridge) :
    Runs { b with finished := true } (.shutting last)
      (.inner :: List.replicate b.queue.length .inner ++ [last]) b.close .resting :=
  .step .cancel (runs_draining last { b with finished := true, cancelled := true })

/-- A reader that looks for a failure is given the one that is kept. -/
theorem leads_holding {error : QueryError} (hError : b.takeError.1 = some error) (d : Option Delivery) :
    Leads b (.holding d) (.replied (some (.error error))) :=
  .of_move (.take hError) ⟨_, _, runs_shutting _ b.takeError.2⟩

end Reader

/-- A bridge with all who use it. -/
structure Crossing where
  bridge : Bridge
  producers : List Producer
  reader : Reader

/-- What can be told of an action: who took it, a producer, the reader, or the one who stops the query
around this one. -/
inductive Deed where
  | produced (k : Nat) (act : Act)
  | read (glance : Glance)
  | outerStopped

abbrev History := List Deed

namespace Crossing

/-- Before anything has been done: a new bridge, perhaps within a query that has been stopped, and
producers that are to say what they start with. -/
def opening (capacity : Nat) (stopped : Bool) (starts : List (Emission Process)) : Crossing :=
  ⟨.within capacity stopped, starts.map .saying, .resting⟩

inductive Step (env : Environment) : Crossing → Deed → Crossing → Prop where
  | produce {s : Crossing} {b : Bridge} {k : Nat} {act : Act} {p q : Producer}
      (hGet : s.producers[k]? = some p) (move : p.Moves env s.bridge act b q) :
      Step env s (.produced k act) { s with bridge := b, producers := s.producers.set k q }
  | read {s : Crossing} {b : Bridge} {glance : Glance} {r : Reader}
      (move : s.reader.Moves s.bridge glance b r) :
      Step env s (.read glance) { s with bridge := b, reader := r }
  | stop {s : Crossing} :
      Step env s .outerStopped { s with bridge := { s.bridge with outerClosed := true } }

/-- Any number of actions, one after another. -/
inductive Course (env : Environment) (start : Crossing) : History → Crossing → Prop where
  | start : Course env start [] start
  | step {h : History} {s s' : Crossing} {d : Deed} (prior : Course env start h s)
      (last : Step env s d s') : Course env start (h ++ [d]) s'

variable {env : Environment} {start middle finish : Crossing} {h h' : History}

theorem Course.eq_of_nil (course : Course env start [] finish) : finish = start := by
  generalize hNone : ([] : History) = h at course
  cases course with
  | start => rfl
  | step prior last => simp at hNone

/-- The last action of a course comes after all others. -/
theorem Course.last {d : Deed} (course : Course env start (h ++ [d]) finish) :
    ∃ s, Course env start h s ∧ Step env s d finish := by
  generalize hWhole : h ++ [d] = whole at course
  cases course with
  | start => simp at hWhole
  | step prior last =>
      obtain ⟨rfl, hLast⟩ := List.append_inj' hWhole rfl
      obtain rfl := List.singleton_inj.mp hLast
      exact ⟨_, prior, last⟩

theorem Course.trans (left : Course env start h middle) (right : Course env middle h' finish) :
    Course env start (h ++ h') finish := by
  induction right with
  | start => simpa using left
  | step prior last ih => simpa [← List.append_assoc] using ih.step last

/-- A course passes through the states between its actions. -/
theorem Course.split (course : Course env start (h ++ h') finish) :
    ∃ middle, Course env start h middle ∧ Course env middle h' finish := by
  induction h' using List.reverseRecOn generalizing finish with
  | nil => exact ⟨finish, by simpa using course, .start⟩
  | append_singleton h' d ih =>
      rw [← List.append_assoc] at course
      obtain ⟨s, prior, last⟩ := course.last
      obtain ⟨middle, hBefore, hAfter⟩ := ih prior
      exact ⟨middle, hBefore, hAfter.step last⟩

/-- A course passes through the states before and after each of its actions. -/
theorem Course.around {d : Deed} (course : Course env start (h ++ d :: h') finish) :
    ∃ before after, Course env start h before ∧ Step env before d after ∧
      Course env after h' finish := by
  rw [List.append_cons] at course
  obtain ⟨after, hFirst, hRest⟩ := course.split
  obtain ⟨before, prior, last⟩ := hFirst.last
  exact ⟨before, after, prior, last, hRest⟩

/-- What the reader does by itself is a course. -/
theorem course_of_runs {b b' : Bridge} {r r' : Reader} {glances : List Glance}
    (runs : r.Runs b glances b' r') (producers : List Producer) :
    Course env ⟨b, producers, r⟩ (glances.map .read) ⟨b', producers, r'⟩ := by
  induction runs with
  | rest => exact .start
  | step first later ih => exact (Course.start.step (.read first)).trans ih

end Crossing

end SolutionFlow
