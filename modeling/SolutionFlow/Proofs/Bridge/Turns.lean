import SolutionFlow.Evaluation
import SolutionFlow.Proofs.Bridge.Crossing

/-! What a cursor does is a course. It takes turns with its query, which moves only when nothing waits,
so that of all orders of their actions it takes one; without a time limit it does nothing else. -/
namespace SolutionFlow

variable {env : Environment}

/-- What a call of the reader gives, if this is its end. -/
def Glance.reply? : Glance → Option (Option Item)
  | .replied item => some item
  | _ => none

def Deed.reply? : Deed → Option (Option Item)
  | .read glance => glance.reply?
  | _ => none

namespace History

/-- What the calls of the reader have given. -/
def replies (h : History) : List (Option Item) := h.filterMap Deed.reply?

@[simp]
theorem replies_append (h h' : History) : replies (h ++ h') = h.replies ++ h'.replies :=
  List.filterMap_append

theorem replies_read (glances : List Glance) :
    replies (glances.map .read) = glances.filterMap Glance.reply? :=
  List.filterMap_map

end History

/-- The producer of an emission under way. One that waits for room has its delivery still to offer. -/
def Playing.producer : Playing Process → Producer
  | .ended process => .saying (.done process)
  | .blocked rest => .saying rest

namespace Crossing

variable {b b' : Bridge} {p q : Producer} {r : Reader} {act : Act} {h : History} {s : Crossing}

/-- The only producer acts first. -/
theorem Course.led (course : Course env ⟨b', [q], r⟩ h s) (move : p.Moves env b act b' q) :
    Course env ⟨b, [p], r⟩ (.produced 0 act :: h) s :=
  (Course.start.step (.produce rfl move)).trans course

end Crossing

namespace Bridge

open Crossing (Course)

/-- Playing an emission is what a producer does by itself. -/
theorem course_of_play (b : Bridge) (clock : Clock) (e : Emission Process) (r : Reader) :
    ∃ h, Course env ⟨b, [.saying e], r⟩ h
      ⟨(b.play clock e).2.1, [(b.play clock e).1.producer], r⟩ ∧ h.replies = [] := by
  induction e generalizing b clock with
  | done process => exact ⟨[], .start, rfl⟩
  | emit row next ih =>
      rw [play]
      split
      next hClosed =>
        obtain ⟨h, hCourse, hNone⟩ := ih false b clock
        exact ⟨_, (hCourse.led (.refuse hClosed)).led .offerRow, hNone⟩
      next hOpen =>
        split
        next hRoom =>
          obtain ⟨h, hCourse, hNone⟩ := ih true (b.enqueue (.row row)) clock
          exact ⟨_, ((hCourse.led (.accept hRoom)).led (.look (by simpa using hOpen))).led .offerRow,
            hNone⟩
        next => exact ⟨[], .start, rfl⟩
  | finish next ih =>
      rw [play]
      split
      next hClosed =>
        obtain ⟨h, hCourse, hNone⟩ := ih b clock
        exact ⟨_, (hCourse.led (.refuse hClosed)).led .offerFinish, hNone⟩
      next hOpen =>
        split
        next hRoom =>
          obtain ⟨h, hCourse, hNone⟩ := ih (b.enqueue .finish) clock
          exact ⟨_,
            ((hCourse.led (.accept hRoom)).led (.look (by simpa using hOpen))).led .offerFinish, hNone⟩
        next => exact ⟨[], .start, rfl⟩
  | fail error next ih =>
      obtain ⟨h, hCourse, hNone⟩ := ih (b.fail error) clock
      exact ⟨_, ((hCourse.led .wake).led .cancel).led .note, hNone⟩
  | probe next ih =>
      obtain ⟨h, hCourse, hNone⟩ := ih b.isClosed b clock
      exact ⟨_, hCourse.led .probe, hNone⟩
  | consult next ih =>
      obtain ⟨h, hCourse, hNone⟩ := ih clock b clock
      exact ⟨_, hCourse.led (.consult clock), hNone⟩
  | adjust later next ih =>
      obtain ⟨h, hCourse, hNone⟩ := ih b later
      exact ⟨_, hCourse.led .adjust, hNone⟩

/-- The reply to the reader that comes of a look, if it is not to look again. -/
def Outcome.reply? : Outcome → Option (Option Item)
  | .row solution => some (some (.ok solution))
  | .failed error => some (some (.error error))
  | .ended => some none
  | .again => none

/-- The reader rests after a reply, and looks again without one. -/
def Outcome.reader (outcome : Outcome) : Reader :=
  if outcome.reply?.isSome then .resting else .looking

theorem settle_failed {b : Bridge} {error : QueryError} (hFirst : b.first = some error)
    (received : Option Delivery) :
    b.settle received none = (.failed (error.withSuppressed b.later), b.takeError.2.close) := by
  simp [settle, takeError, hFirst]

theorem settle_unfailed {b : Bridge} (hNone : b.first = none) (received : Option Delivery) :
    b.settle received none =
      match received with
      | some (.row solution) => (.row solution, b)
      | some .finish => (.ended, b.close)
      | some .wake | none => (.again, b) := by
  rcases received with _ | _ | _ | _ <;> simp [settle, takeError, hNone]

/-- Closing the bridge gives what the reader is closing it for, and nothing else. -/
theorem reply_shutting (count : Nat) (last : Glance) :
    List.filterMap Glance.reply? (.inner :: List.replicate count .inner ++ [last]) =
      last.reply?.toList := by
  have hSilent : ∀ glance ∈ List.replicate count Glance.inner, glance.reply? = none := by
    simp +contextual [Glance.reply?]
  rw [List.filterMap_append, List.filterMap_cons_none rfl, List.filterMap_eq_nil_iff.mpr hSilent]
  cases hLast : last.reply? <;> simp [hLast]

/-- Drawing the conclusion is what the reader does by itself. -/
theorem runs_of_settle (b : Bridge) (received : Option Delivery) :
    ∃ glances, Reader.Runs b (.holding received) glances (b.settle received none).2
        (b.settle received none).1.reader ∧
      glances.filterMap Glance.reply? = (b.settle received none).1.reply?.toList := by
  cases hFirst : b.first with
  | some error =>
      have hError : b.takeError.1 = some (error.withSuppressed b.later) := by simp [takeError, hFirst]
      rw [settle_failed hFirst]
      have hShut := reply_shutting b.takeError.2.queue.length
        (.replied (some (.error (error.withSuppressed b.later))))
      exact ⟨.took :: _, .step (.take hError) (Reader.runs_shutting _ b.takeError.2), hShut⟩
  | none =>
      rw [settle_unfailed hFirst]
      rcases received with _ | row | _ | _
      · exact ⟨_, .step (.pass hFirst) (.step (.again (.inl rfl)) .rest), rfl⟩
      · exact ⟨_, .step (.pass hFirst) (.step .give .rest), rfl⟩
      · exact ⟨_, .step (.pass hFirst) (.step .finish (Reader.runs_shutting _ b)),
          reply_shutting b.queue.length _⟩
      · exact ⟨_, .step (.pass hFirst) (.step (.again (.inr rfl)) .rest), rfl⟩

end Bridge

namespace Cursor

open Crossing (Course)

variable {c c' : Cursor}

/-- A cursor as a crossing, with its reader where it says. -/
def crossing (c : Cursor) (r : Reader) : Crossing := ⟨c.bridge, [c.activity.producer], r⟩

/-- There is no time limit. -/
def Unlimited (c : Cursor) : Prop := c.deadline.budget = none

theorem Unlimited.overrun?_eq (hUnlimited : c.Unlimited) : c.overrun? = none := by
  simp [Unlimited] at hUnlimited
  simp [overrun?, Deadline.overrun?, hUnlimited]

/-- What moves in a cursor is its query, and that gives no replies. -/
theorem course_of_play (env : Environment) (c : Cursor) (time : Nat) (e : Emission Process)
    (r : Reader) :
    ∃ h, Course env ⟨c.bridge, [.saying e], r⟩ h ((c.play time e).crossing r) ∧ h.replies = [] :=
  c.bridge.course_of_play { c.clock with time := time } e r

theorem course_of_advance (hUnlimited : c.Unlimited) (hAdvance : c.advance env = some c') (r : Reader) :
    c'.Unlimited ∧ ∃ h, Course env (c.crossing r) h (c'.crossing r) ∧ h.replies = [] := by
  unfold advance at hAdvance
  split at hAdvance
  next rest hBlocked =>
    rw [← Option.some.inj hAdvance]
    obtain ⟨h, hCourse, hNone⟩ := c.course_of_play env c.clock.time rest r
    exact ⟨hUnlimited, h, by rwa [crossing, hBlocked], hNone⟩
  next process hEnded =>
    split at hAdvance
    next =>
      have hNever : c.deadline.passed? = none := by
        simpa [Deadline.passed?, Unlimited] using hUnlimited
      simp [hNever] at hAdvance
    next appointment hEarliest =>
      have hTime : (c.waitUntil appointment.time).overrun? = none :=
        Unlimited.overrun?_eq (c := c.waitUntil appointment.time) hUnlimited
      simp only [hTime, Option.isSome_none, Bool.false_eq_true, ↓reduceIte, Option.some.injEq]
        at hAdvance
      rw [← hAdvance]
      obtain ⟨h, hCourse, hNone⟩ := c.course_of_play env appointment.time
        (process.deliver env appointment.path) r
      refine ⟨hUnlimited, .produced 0 .inner :: h, ?_, hNone⟩
      rw [crossing, hEnded]
      exact hCourse.led (.turn (Process.live_of_earliest process hEarliest))

/-- A look at the bridge is a course, with a reply at its end if there is one. -/
theorem course_of_look (hUnlimited : c.Unlimited) (hOpen : c.bridge.finished = false)
    {outcome : Bridge.Outcome} (hLook : c.look env = some (outcome, c')) :
    c'.Unlimited ∧ ∃ h, Course env (c.crossing .looking) h (c'.crossing outcome.reader) ∧
      h.replies = outcome.reply?.toList := by
  unfold look at hLook
  split at hLook
  next d bridge hQueue =>
    obtain ⟨rfl, rfl⟩ := Prod.mk.inj (Option.some.inj hLook)
    have hReceive : Reader.Moves c.bridge .looking (.received (some d)) bridge (.holding (some d)) := by
      have hMove := Reader.Moves.receive hOpen
      rwa [hQueue] at hMove
    rw [hUnlimited.overrun?_eq]
    obtain ⟨glances, hRuns, hReplies⟩ := bridge.runs_of_settle (some d)
    refine ⟨hUnlimited, _, Crossing.course_of_runs (.step hReceive hRuns) _, ?_⟩
    rw [History.replies_read]
    exact hReplies
  next bridge hEmpty =>
    obtain ⟨next, hAdvance, hEq⟩ := Option.map_eq_some_iff.mp hLook
    obtain ⟨rfl, rfl⟩ := Prod.mk.inj hEq
    have hReceive : Reader.Moves c.bridge .looking (.received none) c.bridge (.holding none) := by
      have hMove := Reader.Moves.receive hOpen
      unfold Bridge.dequeue at hEmpty hMove
      split at hEmpty
      next hQueue => simpa [hQueue] using hMove
      next => simp at hEmpty
    obtain ⟨hNext, h, hCourse, hNone⟩ := course_of_advance hUnlimited hAdvance (.holding none)
    rw [hNext.overrun?_eq]
    obtain ⟨glances, hRuns, hReplies⟩ := next.bridge.runs_of_settle none
    refine ⟨hNext, _, ((Course.start.step (.read hReceive)).trans hCourse).trans
      (Crossing.course_of_runs hRuns _), ?_⟩
    rw [History.replies_append, History.replies_append, hNone, History.replies_read, hReplies]
    rfl

/-- Waiting for the next item is a course. It ends with the reply, unless the query falls silent: then
the reader is still looking. -/
theorem course_of_waiting (env : Environment) (hUnlimited : c.Unlimited) (patience : Nat) :
    (c.next env patience).2.Unlimited ∧ ∃ h r,
      Course env (c.crossing .looking) h ((c.next env patience).2.crossing r) ∧
      (r = .resting ∧ h.replies = [(c.next env patience).1] ∨
        r = .looking ∧ h.replies = [] ∧ (c.next env patience).1 = none) := by
  induction patience generalizing c with
  | zero => exact ⟨hUnlimited, [], .looking, .start, .inr ⟨rfl, rfl, rfl⟩⟩
  | succ patience ih =>
      rw [next]
      split
      next hFinished =>
        exact ⟨hUnlimited, _, .resting, Course.start.step (.read (.closed hFinished)), .inl ⟨rfl, rfl⟩⟩
      next hOpen =>
        have hSees {outcome : Bridge.Outcome} {c' : Cursor} (hLook : c.look env = some (outcome, c')) :=
          course_of_look hUnlimited (by simpa using hOpen) hLook
        split
        next => exact ⟨hUnlimited, [], .looking, .start, .inr ⟨rfl, rfl, rfl⟩⟩
        next row c' hLook =>
          obtain ⟨hNext, h, hCourse, hReplies⟩ := hSees hLook
          exact ⟨hNext, h, .resting, hCourse, .inl ⟨rfl, hReplies⟩⟩
        next error c' hLook =>
          obtain ⟨hNext, h, hCourse, hReplies⟩ := hSees hLook
          exact ⟨hNext, h, .resting, hCourse, .inl ⟨rfl, hReplies⟩⟩
        next c' hLook =>
          obtain ⟨hNext, h, hCourse, hReplies⟩ := hSees hLook
          exact ⟨hNext, h, .resting, hCourse, .inl ⟨rfl, hReplies⟩⟩
        next c' hLook =>
          obtain ⟨hNext, h, hCourse, hReplies⟩ := hSees hLook
          obtain ⟨hLater, h', r, hRest, hEnd⟩ := ih hNext
          refine ⟨hLater, _, r, hCourse.trans hRest, ?_⟩
          rw [History.replies_append, hReplies]
          exact hEnd

/-- A call for the next item. -/
theorem course_of_next (env : Environment) (hUnlimited : c.Unlimited) (patience : Nat) :
    (c.next env patience).2.Unlimited ∧ ∃ h r,
      Course env (c.crossing .resting) h ((c.next env patience).2.crossing r) ∧
      (r = .resting ∧ h.replies = [(c.next env patience).1] ∨
        r = .looking ∧ h.replies = [] ∧ (c.next env patience).1 = none) := by
  obtain ⟨hNext, h, r, hCourse, hEnd⟩ := course_of_waiting env hUnlimited patience
  exact ⟨hNext, .read .asked :: h, r, (Course.start.step (.read .ask)).trans hCourse, hEnd⟩

/-- A call to close the bridge. -/
theorem course_of_close (env : Environment) (c : Cursor) :
    ∃ h, Course env (c.crossing .resting) h (c.close.crossing .resting) ∧ h.replies = [] := by
  have hShut := Bridge.reply_shutting c.bridge.queue.length .closed
  refine ⟨_, Crossing.course_of_runs (.step .close (Reader.runs_shutting .closed c.bridge)) _, ?_⟩
  rw [History.replies_read]
  exact hShut

/-- What can be done with a query: it is launched, and then its cursor is asked for items and closed,
call after call, where each call comes to its end. The list holds what the reader is given. -/
inductive Used (env : Environment) (capacity : Nat) (stopped : Bool) (start : Emission Process) :
    List (Option Item) → Cursor → Prop where
  | launched {e : Evaluation} {plan : Plan} {seed : Solution} {scope : Scope} (clock : Clock)
      (hStart : plan.start env seed scope = start) (hUnlimited : e.deadline.budget = none) :
      Used env capacity stopped start []
        (e.launchOn (.within capacity stopped) env plan seed scope clock)
  | asked {replies : List (Option Item)} {c : Cursor} (prior : Used env capacity stopped start replies c)
      (patience : Nat) (hReplied : (c.next env patience).1.isSome = true ∨
        (c.next env patience).2.isClosed = true) :
      Used env capacity stopped start (replies ++ [(c.next env patience).1]) (c.next env patience).2
  | closed {replies : List (Option Item)} {c : Cursor}
      (prior : Used env capacity stopped start replies c) :
      Used env capacity stopped start replies c.close

/-- Whatever is done with a query that has no time limit, its bridge takes the course of a crossing with
one producer, in which the reader is given the same. -/
theorem Used.course {capacity : Nat} {stopped : Bool} {start : Emission Process}
    {replies : List (Option Item)} (used : Used env capacity stopped start replies c) :
    c.Unlimited ∧ ∃ h, Course env (Crossing.opening capacity stopped [start]) h (c.crossing .resting) ∧
      h.replies = replies := by
  induction used with
  | @launched e plan seed scope clock hStart hUnlimited =>
      exact ⟨hUnlimited,
        hStart ▸ (Bridge.within capacity stopped).course_of_play clock (plan.start env seed scope)
          .resting⟩
  | @asked replies c prior patience hReplied ih =>
      obtain ⟨hUnlimited, h, hCourse, rfl⟩ := ih
      obtain ⟨hNext, h', r, hLater, hEnd⟩ := course_of_next env hUnlimited patience
      refine ⟨hNext, ?_⟩
      rcases hEnd with ⟨rfl, hReply⟩ | ⟨rfl, hSilent, hNone⟩
      · exact ⟨_, hCourse.trans hLater, by rw [History.replies_append, hReply]⟩
      · have hFinished : (c.next env patience).2.bridge.finished = true := by
          simpa [hNone, isClosed] using hReplied
        refine ⟨_, (hCourse.trans hLater).step (.read (.closed hFinished)), ?_⟩
        rw [History.replies_append, History.replies_append, hSilent, hNone, List.append_nil]
        rfl
  | @closed replies c prior ih =>
      obtain ⟨hUnlimited, h, hCourse, rfl⟩ := ih
      obtain ⟨h', hLater, hNone⟩ := course_of_close env c
      exact ⟨hUnlimited, _, hCourse.trans hLater, by rw [History.replies_append, hNone, List.append_nil]⟩

end Cursor

end SolutionFlow
