import SolutionFlow.Proofs.Bridge.Soundness

/-! How long a reader waits. When all producers have stopped, something waits for the reader or has
failed, so that its next call comes to an end; but not if they have stopped because the query around
was stopped. That the reader cannot see, and it looks into an empty queue again and again. -/
namespace SolutionFlow

/-- Whether a producer has a reason to stop with this: its end has been accepted, a push was refused,
it has failed, or it has seen that the bridge is closed. -/
def Act.stops : Act → Bool
  | .accepted .finish | .refused _ | .noted _ | .saw true => true
  | _ => false

/-- The reader knows, or will know from its next look, that the stream is over. -/
def Bridge.Told (b : Bridge) : Prop := b.finished = true ∨ b.first ≠ none

theorem Bridge.Told.failed {b : Bridge} (hTold : b.Told) (hOpen : b.finished = false) :
    b.first ≠ none :=
  hTold.resolve_left (by simp [hOpen])

namespace Producer

variable {env : Environment} {b b' : Bridge} {p q : Producer} {act : Act}

/-- A producer that reports a failure has told of it, and none hands over a call to look for one. -/
def Alert (b : Bridge) : Producer → Prop
  | .saying _ => True
  | .pushing d _ | .sending d _ => d ≠ .wake
  | .cancelling _ | .waking _ => b.Told

theorem Alert.mono (hAlert : p.Alert b) (hTold : b.Told → b'.Told) : p.Alert b' := by
  cases p with
  | saying rest => trivial
  | pushing d next | sending d next => exact hAlert
  | cancelling rest | waking rest => exact hTold hAlert

theorem Moves.alert (move : p.Moves env b act b' q) (hAlert : p.Alert b) (hTold : b.Told → b'.Told) :
    q.Alert b' := by
  cases move with
  | offerRow | offerFinish => exact nofun
  | look | retry => exact hAlert
  | note =>
      obtain ⟨first, later, hNote⟩ := b.note_eq _
      rw [hNote]
      exact .inr nofun
  | cancel => exact hTold hAlert
  | _ => trivial

theorem Moves.told_of_cancelled (move : p.Moves env b act b' q) (hAlert : p.Alert b)
    (hCancelled : b'.cancelled = true) : b.cancelled = true ∨ b.Told := by
  cases move with
  | note =>
      obtain ⟨first, later, hNote⟩ := b.note_eq _
      rw [hNote] at hCancelled
      exact .inl hCancelled
  | cancel => exact .inr hAlert
  | wake => exact .inr hAlert
  | _ => exact .inl hCancelled

theorem Moves.told_of_wake (move : p.Moves env b act b' q) (hAlert : p.Alert b)
    (hQueued : .wake ∈ b'.queue) : .wake ∈ b.queue ∨ b.Told := by
  cases move with
  | accept =>
      rcases List.mem_append.mp hQueued with hOld | hNew
      · exact .inl hOld
      · exact absurd (List.mem_singleton.mp hNew).symm hAlert
  | note =>
      obtain ⟨first, later, hNote⟩ := b.note_eq _
      rw [hNote] at hQueued
      exact .inl hQueued
  | cancel | wake => exact .inr hAlert
  | _ => exact .inl hQueued

end Producer

namespace Reader

variable {b : Bridge}

/-- A reader that looks into the queue comes to a reply if it finds a failure or a delivery. -/
theorem leads_looking (hOpen : b.finished = false)
    (hSome : b.first ≠ none ∨ ∃ d, b.dequeue.1 = some d ∧ d ≠ .wake) :
    ∃ item, Leads b .looking (.replied item) := by
  have hRest := b.dequeue_eq.2
  cases hFirst : b.first with
  | some error =>
      have hError : b.dequeue.2.takeError.1 = some (error.withSuppressed b.later) := by
        rw [hRest]
        simp [Bridge.takeError, hFirst]
      exact ⟨_, .of_move (.receive hOpen) (leads_holding hError _)⟩
  | none =>
      obtain ⟨d, hFound, hReal⟩ := hSome.resolve_left (not_not.mpr hFirst)
      obtain ⟨word, hWord⟩ := Delivery.exists_word hReal
      have hPass : Moves b.dequeue.2 (.holding b.dequeue.1) .inner b.dequeue.2 (.judging b.dequeue.1) :=
        .pass (by rw [hRest]; exact hFirst)
      have hLeads := leads_judging b.dequeue.2 hWord
      rw [← hFound] at hLeads
      exact ⟨_, .of_move (.receive hOpen) (.of_move hPass hLeads)⟩

end Reader

namespace Crossing

variable {env : Environment} {capacity : Nat} {stopped : Bool} {starts : List (Emission Process)}
  {h : History} {s s' : Crossing} {d : Deed}

/-- A producer has come to the end of its emission, no job is left that could go on, and there has been
a reason for it. -/
def Stopped (h : History) (k : Nat) (s : Crossing) : Prop :=
  ∃ p act, s.producers[k]? = some (.saying (.done p)) ∧ p.Finished ∧ .produced k act ∈ h ∧
    act.stops = true

/-- There is something for the reader: a delivery that waits or is in its hand, or a failure. -/
def Supplied (s : Crossing) : Prop :=
  s.bridge.queue ≠ [] ∨ s.bridge.first ≠ none ∨ s.reader.inHand.isSome = true

/-- Whoever stops the producers, or calls the reader, has told why. -/
structure Alert (s : Crossing) : Prop where
  cancelled : s.bridge.cancelled = true → s.bridge.Told
  queued : .wake ∈ s.bridge.queue → s.bridge.Told
  inHand : s.reader.inHand = some .wake → s.bridge.Told
  producers : ∀ p ∈ s.producers, p.Alert s.bridge

/-- The end of the stream is under way to the reader, or the query around has been stopped. -/
def Settled (s : Crossing) : Prop :=
  s.bridge.Told ∨ s.bridge.outerClosed = true ∨ .finish ∈ s.bridge.queue ∨
    s.reader.inHand = some .finish

/-- Nobody takes back what the reader has been told. -/
theorem Step.told (step : Step env s d s') (hTold : s.bridge.Told) : s'.bridge.Told := by
  cases step with
  | produce hGet move =>
      exact hTold.imp (fun hFinished => move.grows.finished ▸ hFinished) move.grows.first
  | read move =>
      obtain ⟨bridge, producers, reader⟩ := s
      cases move with
      | receive | drop =>
          rw [bridge.dequeue_eq.2]
          exact hTold
      | take | finish | close => exact .inl rfl
      | cancel => exact hTold
      | _ => exact hTold
  | stop => exact hTold

theorem alert_opening (capacity : Nat) (stopped : Bool) (starts : List (Emission Process)) :
    (opening capacity stopped starts).Alert where
  cancelled := nofun
  queued := nofun
  inHand := nofun
  producers := List.forall_mem_map.mpr fun _ _ => trivial

theorem Alert.step (hAlert : s.Alert) (hFits : s.reader.Fits s.bridge.finished s.bridge.cancelled)
    (step : Step env s d s') : s'.Alert := by
  have hTold := step.told
  have hOthers : ∀ p ∈ s.producers, p.Alert s'.bridge :=
    fun p hMem => (hAlert.producers p hMem).mono hTold
  cases step with
  | produce hGet move =>
      have hProducer := hAlert.producers _ (List.mem_of_getElem? hGet)
      exact {
        cancelled := fun hCancelled => hTold <|
          (move.told_of_cancelled hProducer hCancelled).elim hAlert.cancelled id
        queued := fun hQueued => hTold <| (move.told_of_wake hProducer hQueued).elim hAlert.queued id
        inHand := fun hHand => hTold (hAlert.inHand hHand)
        producers := fun p hMem => (List.mem_or_eq_of_mem_set hMem).elim (hOthers p)
          fun hEq => hEq ▸ move.alert hProducer hTold }
  | read move =>
      obtain ⟨bridge, producers, reader⟩ := s
      obtain ⟨hCancelled, hQueued, hHand, -⟩ := hAlert
      obtain ⟨hQueue, hRest⟩ := bridge.dequeue_eq
      have hLater : .wake ∈ bridge.dequeue.2.queue → bridge.Told := fun hMem =>
        hQueued (hQueue ▸ List.mem_append_right _ hMem)
      cases move with
      | receive hOpen =>
          refine ⟨fun h => hTold (hCancelled (by rwa [hRest] at h)), fun h => hTold (hLater h),
            fun h => hTold (hQueued ?_), hOthers⟩
          have hFirst : bridge.dequeue.1 = some .wake := h
          rw [hQueue, hFirst]
          simp
      | drop => exact ⟨fun _ => hTold (.inl hFits.1), fun _ => hTold (.inl hFits.1), nofun, hOthers⟩
      | take | finish | close => exact ⟨fun _ => .inl rfl, fun _ => .inl rfl, nofun, hOthers⟩
      | cancel => exact ⟨fun _ => .inl hFits.1, hQueued, nofun, hOthers⟩
      | pass => exact ⟨hCancelled, hQueued, hHand, hOthers⟩
      | _ => exact ⟨hCancelled, hQueued, nofun, hOthers⟩
  | stop => exact ⟨fun h => hTold (hAlert.cancelled h), fun h => hTold (hAlert.queued h),
      fun h => hTold (hAlert.inHand h), hOthers⟩

theorem Course.alert (course : Course env (opening capacity stopped starts) h s) : s.Alert := by
  induction course with
  | start => exact alert_opening capacity stopped starts
  | step prior last ih => exact ih.step prior.sound.fits last

/-- Nothing takes the end of the stream away on its way to the reader. -/
theorem Settled.step (hSettled : s.Settled)
    (hFits : s.reader.Fits s.bridge.finished s.bridge.cancelled) (step : Step env s d s') :
    s'.Settled := by
  have hTold := step.told
  cases step with
  | produce hGet move =>
      exact hSettled.imp hTold <| .imp (fun hOuter => move.grows.outerClosed ▸ hOuter) <|
        .imp (fun hQueued => move.grows.queue.subset hQueued) id
  | stop => exact .inr (.inl rfl)
  | read move =>
      obtain ⟨bridge, producers, reader⟩ := s
      obtain ⟨hQueue, hRest⟩ := bridge.dequeue_eq
      cases move with
      | receive hOpen =>
          refine hSettled.imp hTold <| .imp (fun hOuter => by rw [hRest]; exact hOuter) fun hEnd => ?_
          have hQueued : .finish ∈ bridge.queue := hEnd.resolve_right (by simp [Reader.inHand])
          rw [hQueue, List.mem_append] at hQueued
          exact hQueued.symm.imp id fun hMem => by simpa [Reader.inHand] using hMem
      | take | finish | close => exact .inl (.inl rfl)
      | cancel | drop | leave => exact .inl (hTold (.inl hFits.1))
      | pass => exact hSettled
      | again hNothing =>
          refine hSettled.imp id <| .imp id <| .imp id fun hHand => ?_
          obtain rfl | rfl := hNothing <;> simp [Reader.inHand] at hHand
      | _ => exact hSettled.imp id <| .imp id <| .imp id fun hHand => by simp [Reader.inHand] at hHand

/-- Whatever has stopped a producer settles the stream. -/
theorem Step.settled {k : Nat} {act : Act} (step : Step env s (.produced k act) s')
    (hAlert : s.Alert) (hStops : act.stops = true) : s'.Settled := by
  have hClosed (hIs : s.bridge.isClosed = true) : s.Settled := by
    simp only [Bridge.isClosed, Bool.or_eq_true] at hIs
    exact hIs.imp hAlert.cancelled .inl
  cases step with
  | produce hGet move =>
      cases move with
      | refuse hIs => exact hClosed hIs
      | accept hRoom =>
          refine .inr (.inr (.inl ?_))
          rename_i d next
          cases d with
          | finish => simp [Bridge.enqueue]
          | row row => simp [Act.stops] at hStops
          | wake => simp [Act.stops] at hStops
      | note =>
          obtain ⟨first, later, hNote⟩ := s.bridge.note_eq _
          rw [hNote]
          exact .inl (.inr (by simp))
      | probe =>
          cases hIs : s.bridge.isClosed with
          | true => exact hClosed hIs
          | false => simp [hIs, Act.stops] at hStops
      | _ => simp [Act.stops] at hStops

/-- From the first reason to stop on, the stream is settled. -/
theorem Course.settled {k : Nat} {act : Act} (course : Course env (opening capacity stopped starts) h s)
    (hMem : .produced k act ∈ h) (hStops : act.stops = true) : s.Settled := by
  induction course with
  | start => simp at hMem
  | step prior last ih =>
      rcases List.mem_append.mp hMem with hBefore | hNow
      · exact (ih hBefore).step prior.sound.fits last
      · obtain rfl := List.mem_singleton.mp hNow
        exact last.settled prior.alert hStops

/-- A reader with something to get comes to a reply. -/
theorem Supplied.answered (hSupplied : s.Supplied) (hOpen : s.bridge.finished = false)
    (hFits : s.reader.Fits s.bridge.finished s.bridge.cancelled) (hAlert : s.Alert) :
    ∃ item, s.reader.Leads s.bridge (.replied item) := by
  obtain ⟨b, producers, reader⟩ := s
  replace hOpen : b.finished = false := hOpen
  have hLooking (hSome : b.queue ≠ [] ∨ b.first ≠ none) :
      ∃ item, Reader.Leads b .looking (.replied item) := by
    refine Reader.leads_looking hOpen ?_
    rcases hSome with hQueue | hFirst
    · obtain ⟨d, rest, hCons⟩ := List.exists_cons_of_ne_nil hQueue
      by_cases hWake : d = .wake
      · exact .inl ((hAlert.queued (by simp [hCons, hWake])).failed hOpen)
      · exact .inr ⟨d, by simp [Bridge.dequeue, hCons], hWake⟩
    · exact .inl hFirst
  have hJudging (d : Option Delivery) (hWake : d = some .wake → b.Told)
      (hSome : b.queue ≠ [] ∨ b.first ≠ none ∨ d.isSome = true) :
      ∃ item, Reader.Leads b (.judging d) (.replied item) := by
    by_cases hNothing : d = none ∨ d = some .wake
    · obtain ⟨item, hLeads⟩ := hLooking (by
        rcases hNothing with rfl | rfl
        · simpa using hSome
        · exact .inr ((hWake rfl).failed hOpen))
      exact ⟨item, .of_move (.again hNothing) hLeads⟩
    · obtain ⟨d, rfl⟩ := Option.ne_none_iff_exists'.mp fun hNone => hNothing (.inl hNone)
      obtain ⟨word, hWord⟩ :=
        Delivery.exists_word fun hEq : d = .wake => hNothing (.inr (congrArg some hEq))
      exact ⟨_, Reader.leads_judging b hWord⟩
  cases reader with
  | resting =>
      obtain ⟨item, hLeads⟩ := hLooking (by simpa [Supplied, Reader.inHand] using hSupplied)
      exact ⟨item, .of_move .ask hLeads⟩
  | looking => exact hLooking (by simpa [Supplied, Reader.inHand] using hSupplied)
  | holding d =>
      cases hFirst : b.first with
      | some error =>
          have hError : b.takeError.1 = some (error.withSuppressed b.later) := by
            simp [Bridge.takeError, hFirst]
          exact ⟨_, Reader.leads_holding hError d⟩
      | none =>
          obtain ⟨item, hLeads⟩ := hJudging d (fun hEq => hAlert.inHand hEq) hSupplied
          exact ⟨item, .of_move (.pass hFirst) hLeads⟩
  | judging d => exact hJudging d (fun hEq => hAlert.inHand hEq) hSupplied
  | shutting last | draining last => exact absurd (hOpen.symm.trans hFits.1) Bool.false_ne_true

/-- Nothing is there for the reader, and no producer is left that could change it. -/
structure Starved (s : Crossing) : Prop where
  unfinished : s.bridge.finished = false
  empty : s.bridge.queue = []
  unfailed : s.bridge.first = none
  idle : s.reader = .resting ∨ s.reader = .looking ∨ s.reader = .holding none ∨ s.reader = .judging none
  done : ∀ p ∈ s.producers, ∃ q, p = .saying (.done q) ∧ q.Finished

/-- Such a reader is not given anything, unless it closes the bridge itself. -/
theorem Starved.step (hStarved : s.Starved) (step : Step env s d s') (hClosing : d ≠ .read .closing) :
    s'.Starved ∧ ∀ item, d ≠ .read (.replied item) := by
  obtain ⟨hOpen, hEmpty, hNone, hIdle, hDone⟩ := hStarved
  cases step with
  | produce hGet move =>
      obtain ⟨q, rfl, hFinished⟩ := hDone _ (List.mem_of_getElem? hGet)
      cases move with
      | turn hLive => exact absurd hLive (hFinished _)
  | stop => exact ⟨⟨hOpen, hEmpty, hNone, hIdle, hDone⟩, nofun⟩
  | read move =>
      obtain ⟨b, producers, reader⟩ := s
      have hDequeue : b.dequeue = (none, b) := by
        have hQueue : b.queue = [] := hEmpty
        simp [Bridge.dequeue, hQueue]
      cases move with
      | ask => exact ⟨⟨hOpen, hEmpty, hNone, .inr (.inl rfl), hDone⟩, nofun⟩
      | receive =>
          rw [hDequeue]
          exact ⟨⟨hOpen, hEmpty, hNone, .inr (.inr (.inl rfl)), hDone⟩, nofun⟩
      | pass =>
          obtain rfl : _ = none := by simpa using hIdle
          exact ⟨⟨hOpen, hEmpty, hNone, .inr (.inr (.inr rfl)), hDone⟩, nofun⟩
      | again => exact ⟨⟨hOpen, hEmpty, hNone, .inr (.inl rfl), hDone⟩, nofun⟩
      | closed hFinished => exact absurd (hOpen.symm.trans hFinished) nofun
      | take hError =>
          obtain ⟨first, hFirst, -⟩ := Bridge.takeError_eq_some hError
          exact absurd (hNone.symm.trans hFirst) nofun
      | close => exact absurd rfl hClosing
      | give | finish | cancel | drop | leave => simp at hIdle

theorem Starved.course (hStarved : s.Starved) (course : Course env s h s')
    (hClosing : .read .closing ∉ h) : s'.Starved ∧ ∀ item, .read (.replied item) ∉ h := by
  induction course with
  | start => exact ⟨hStarved, by simp⟩
  | step prior last ih =>
      simp only [List.mem_append, List.mem_singleton, not_or] at hClosing ⊢
      obtain ⟨hBefore, hSilent⟩ := ih hClosing.1
      obtain ⟨hAfter, hNow⟩ := hBefore.step last (Ne.symm hClosing.2)
      exact ⟨hAfter, fun item => ⟨hSilent item, (hNow item).symm⟩⟩

/-- Where the stream is settled and no producer is left, either the reader comes to a reply by itself,
or the query around has been stopped and the reader is left with nothing. -/
theorem Settled.answered_or_starved (hSettled : s.Settled)
    (hFits : s.reader.Fits s.bridge.finished s.bridge.cancelled) (hAlert : s.Alert)
    (hOpen : s.bridge.finished = false)
    (hDone : ∀ p ∈ s.producers, ∃ q, p = .saying (.done q) ∧ q.Finished) :
    s.Supplied ∧ (∃ item, s.reader.Leads s.bridge (.replied item)) ∨
      s.bridge.outerClosed = true ∧ ¬s.Supplied ∧ s.Starved := by
  by_cases hSupplied : s.Supplied
  · exact .inl ⟨hSupplied, hSupplied.answered hOpen hFits hAlert⟩
  · have hNothing := hSupplied
    simp only [Supplied, not_or, not_not, Bool.not_eq_true, Option.isSome_eq_false_iff,
      Option.isNone_iff_eq_none] at hNothing
    obtain ⟨hEmpty, hNone, hHand⟩ := hNothing
    refine .inr ⟨?_, hSupplied, hOpen, hEmpty, hNone, ?_, hDone⟩
    · rcases hSettled with hTold | hOuter | hQueued | hFinish
      · exact absurd hNone (hTold.failed hOpen)
      · exact hOuter
      · simp [hEmpty] at hQueued
      · simp [hHand] at hFinish
    · cases hReader : s.reader with
      | resting => exact .inl rfl
      | looking => exact .inr (.inl rfl)
      | holding d =>
          rw [hReader] at hHand
          exact .inr (.inr (.inl (congrArg Reader.holding hHand)))
      | judging d =>
          rw [hReader] at hHand
          exact .inr (.inr (.inr (congrArg Reader.judging hHand)))
      | shutting last | draining last =>
          rw [hReader] at hFits
          exact absurd (hOpen.symm.trans hFits.1) nofun

theorem Course.producers_length (course : Course env (opening capacity stopped starts) h s) :
    s.producers.length = starts.length := by
  induction course with
  | start => simp [opening]
  | step prior last ih => cases last <;> simpa using ih

/-- When all producers have stopped and the stream is not over for the reader, there is something for
it and its next call comes to an end; or the query around has been stopped, and no call of the reader
will ever come to an end, unless it closes the bridge. -/
theorem reader_answered_or_query_stopped
    (course : Course env (opening capacity stopped starts) h s) (hSome : starts ≠ [])
    (hStopped : ∀ k < starts.length, s.Stopped h k) (hOpen : s.bridge.finished = false) :
    s.Supplied ∧ (∃ item, s.reader.Leads s.bridge (.replied item)) ∨
      s.bridge.outerClosed = true ∧ ¬s.Supplied ∧
        ∀ h' s', Course env s h' s' → .read .closing ∉ h' → ∀ item, .read (.replied item) ∉ h' := by
  have hDone : ∀ p ∈ s.producers, ∃ q, p = .saying (.done q) ∧ q.Finished := by
    intro p hMem
    obtain ⟨k, hGet⟩ := List.mem_iff_getElem?.mp hMem
    have hLt : k < starts.length := by
      rw [← course.producers_length]
      exact (List.getElem?_eq_some_iff.mp hGet).1
    obtain ⟨q, act, hSame, hFinished, -⟩ := hStopped k hLt
    exact ⟨q, Option.some.inj (hGet.symm.trans hSame), hFinished⟩
  obtain ⟨-, act, -, -, hMem, hStops⟩ := hStopped 0 (List.length_pos_iff.mpr hSome)
  exact ((course.settled hMem hStops).answered_or_starved course.sound.fits course.alert hOpen
    hDone).imp id fun ⟨hOuter, hNothing, hStarved⟩ =>
      ⟨hOuter, hNothing, fun _ _ later hClosing => (hStarved.course later hClosing).2⟩

/-- A source of one row says it at once, and the end behind it. Its producer has stopped, and the reader
comes to a reply. -/
theorem reader_answered_single :
    let env : Environment := .ofDataset .empty
    ∃ (h : History) (s : Crossing), Course env (opening 2 false [Process.single .empty]) h s ∧
      (∀ k < 1, s.Stopped h k) ∧ s.bridge.finished = false ∧ s.Supplied ∧
      ∃ item, s.reader.Leads s.bridge (.replied item) := by
  intro env
  have given : Course env (opening 2 false [Process.single .empty]) _
      ⟨⟨2, [.row .empty], false, false, none, [], false⟩,
        [.saying (.finish (.done .idle))], .resting⟩ :=
    ((Course.start.step (.produce (k := 0) rfl .offerRow)).step (.produce (k := 0) rfl (.look rfl))).step
      (.produce (k := 0) rfl (.accept rfl))
  let s : Crossing :=
    ⟨⟨2, [.row .empty, .finish], false, false, none, [], false⟩, [.saying (.done .idle)], .resting⟩
  obtain ⟨h, course, hAccepted⟩ : ∃ h, Course env (opening 2 false [Process.single .empty]) h s ∧
      .produced 0 (.accepted .finish) ∈ h :=
    ⟨_, ((given.step (.produce (k := 0) rfl .offerFinish)).step (.produce (k := 0) rfl (.look rfl))).step
      (.produce (k := 0) rfl (.accept rfl)), by simp⟩
  have hStopped : ∀ k < 1, s.Stopped h k := fun k hLt => by
    obtain rfl := Nat.lt_one_iff.mp hLt
    exact ⟨.idle, .accepted .finish, rfl, Process.finished_idle, hAccepted, rfl⟩
  have hReply := reader_answered_or_query_stopped course (by simp) hStopped rfl
  obtain ⟨hSupplied, hAnswered⟩ := hReply.resolve_right fun hOuter => absurd hOuter.1 nofun
  exact ⟨h, s, course, hStopped, rfl, hSupplied, hAnswered⟩

/-- The query around is stopped before the only job of a nested query has made its call. The job sees it
and ends without a word. Nothing waits in the queue and no failure is kept, and the reader, which has
asked for the first row, waits for ever. -/
theorem reader_starves_in_stopped_query :
    let env : Environment := .ofDataset .empty
    let start := (Plan.inline ["y"] [.empty]).start env .empty .subquery
    ∃ (h : History) (s : Crossing), Course env (opening 1 false [start]) h s ∧
      (∀ k < 1, s.Stopped h k) ∧ s.bridge.finished = false ∧ s.reader = .looking ∧
      s.bridge.queue = [] ∧ s.bridge.first = none ∧
      ∀ h' s', Course env s h' s' → .read .closing ∉ h' → ∀ item, .read (.replied item) ∉ h' := by
  intro env start
  let job : Job := ⟨"BindingSetAssignment", 0, .waiting fun _ => return Leaf.inline [.empty] .empty⟩
  have waiting : Course env (opening 1 false [start]) [.read .asked, .outerStopped, .produced 0 .inner]
      ⟨⟨1, [], false, true, none, [], false⟩, [.saying (.done (.leaf job))], .looking⟩ :=
    ((Course.start.step (.read .ask)).step .stop).step (.produce rfl (.consult (.starting 0)))
  have course : Course env (opening 1 false [start])
      [.read .asked, .outerStopped, .produced 0 .inner, .produced 0 .inner, .produced 0 (.saw true)]
      ⟨⟨1, [], false, true, none, [], false⟩, [.saying (.done (.leaf job.stop))], .looking⟩ :=
    (waiting.step (.produce rfl (.turn (show Process.Live (.leaf job) [] from rfl)))).step
      (.produce rfl .probe)
  have hFinished : (Process.leaf job.stop).Finished := Process.finished_leaf.mpr rfl
  have hStarved : Starved
      ⟨⟨1, [], false, true, none, [], false⟩, [.saying (.done (.leaf job.stop))], .looking⟩ :=
    ⟨rfl, rfl, rfl, .inr (.inl rfl), by simpa using hFinished⟩
  refine ⟨_, _, course, fun k hLt => ?_, rfl, rfl, rfl, rfl,
    fun _ _ later hClosing => (hStarved.course later hClosing).2⟩
  obtain rfl := Nat.lt_one_iff.mp hLt
  exact ⟨_, .saw true, rfl, hFinished, by simp, rfl⟩

end Crossing

end SolutionFlow
