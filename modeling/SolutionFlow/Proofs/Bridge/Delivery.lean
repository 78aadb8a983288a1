import SolutionFlow.Proofs.Bridge.Soundness

/-! What comes through a bridge. The reader gets the rows in the order in which they were accepted,
without gaps, until the stream ends for it. No row is lost on the way: each one has been given, is in
the hand of the reader or waits, the next call gives what has waited longest, and an end without a
failure comes behind all rows that were accepted before it. A failure comes before an end that the
reader has not taken yet, and with the first failure go those that were reported until it was taken.
After that nothing more comes, and nothing more is accepted. -/
namespace SolutionFlow

/-- No failure has been reported so far, and none would come too late: the end has not been taken and
the bridge has not been closed. -/
structure History.Unfailed (h : History) : Prop where
  no_failures : h.failures = []
  no_end : .read (.received (some .finish)) ∉ h
  not_closing : .read .closing ∉ h

/-- No failure is kept then, and the stream is not over. -/
theorem Sound.unfailed {capacity : Nat} {h : History} {b : Bridge} {r : Reader}
    (hSound : Sound capacity h b r) (hUnfailed : h.Unfailed) :
    b.finished = false ∧ b.first = none ∧ b.later = [] := by
  have hOpen : b.finished = false := by
    rw [← Bool.not_eq_true]
    intro hFinished
    obtain hReceived | hClosed | hFailed := hSound.ended hFinished
    · exact hUnfailed.no_end hReceived
    · exact hUnfailed.not_closing hClosed
    · exact hFailed hUnfailed.no_failures
  exact ⟨hOpen, by simpa [Bridge.failures, hUnfailed.no_failures] using hSound.kept hOpen⟩

/-- The reader has been given all rows that were accepted before the first end of a stream. -/
def History.Complete (h : History) : Prop :=
  ∃ (early late : History) (k : Nat), h = early ++ .produced k (.accepted .finish) :: late ∧
    (∀ j, .produced j (.accepted .finish) ∉ early) ∧ h.returned = early.accepted

theorem History.Complete.append {h : History} {d : Deed} (hComplete : h.Complete)
    (hReturned : d.returned? = none) : History.Complete (h ++ [d]) := by
  obtain ⟨early, late, k, rfl, hFirst, hRows⟩ := hComplete
  refine ⟨early, late ++ [d], k, by simp, hFirst, ?_⟩
  rw [History.returned_append, hRows]
  simp [History.returned, hReturned]

theorem Deed.eq_of_word?_finish {d : Deed} (h : d.word? = some none) :
    ∃ k, d = .produced k (.accepted .finish) := by
  cases d with
  | produced k act =>
      cases act with
      | accepted d =>
          cases d with
          | finish => exact ⟨k, rfl⟩
          | row | wake => exact nomatch h
      | _ => exact nomatch h
  | _ => exact nomatch h

/-- If an end is what the reader is told next, it has been given all rows before that end. -/
theorem History.complete_of_words {h : History} {later : List (Option Solution)}
    (hWords : h.words = h.returned.map some ++ none :: later) : h.Complete := by
  obtain ⟨before, rest, hSplit, hBefore, hRest⟩ := List.filterMap_eq_append_iff.mp hWords
  obtain ⟨silent, d, late, rfl, hSilent, hWord, -⟩ := List.filterMap_eq_cons_iff.mp hRest
  obtain ⟨k, rfl⟩ := Deed.eq_of_word?_finish hWord
  have hEarly : History.words (before ++ silent) = h.returned.map some := by
    rw [words_append, words, hBefore, words, List.filterMap_eq_nil_iff.mpr hSilent, List.append_nil]
  refine ⟨before ++ silent, late, k, by rw [hSplit, List.append_assoc], fun j hMem => ?_, ?_⟩
  · have hNone : none ∈ h.returned.map some := hEarly ▸ List.mem_filterMap.mpr ⟨_, hMem, rfl⟩
    simp at hNone
  · rw [accepted_eq, hEarly, reduceOption_map_some]

namespace Reader

/-- What the reader has been told: at rest that the stream is over, if it is, and on its way to an end
without a failure all rows that were accepted before the end. -/
def Earned (h : History) (finished : Bool) : Reader → Prop
  | .resting | .looking => finished = true → ∃ d ∈ h, d.ends = true
  | .shutting last | .draining last => last = .replied none → h.Complete
  | .holding _ | .judging _ => True

theorem Earned.append {h : History} {finished : Bool} {r : Reader} {d : Deed}
    (hEarned : r.Earned h finished) (hReturned : d.returned? = none) : r.Earned (h ++ [d]) finished := by
  cases r with
  | resting | looking =>
      intro hFinished
      obtain ⟨x, hMem, hEnds⟩ := hEarned hFinished
      exact ⟨x, List.mem_append_left _ hMem, hEnds⟩
  | shutting last | draining last => exact fun hEnd => (hEarned hEnd).append hReturned
  | holding d | judging d => trivial

/-- The reader earns what it tells of the end of the stream. -/
theorem Moves.earned {capacity : Nat} {h : History} {b b' : Bridge} {r r' : Reader} {glance : Glance}
    (move : r.Moves b glance b' r') (hSound : Sound capacity h b r) (hEarned : r.Earned h b.finished) :
    r'.Earned (h ++ [.read glance]) b'.finished := by
  have hFits := hSound.fits
  cases move with
  | ask => exact Earned.append (r := .looking) hEarned rfl
  | closed => exact fun _ => ⟨_, List.mem_append_right _ (List.mem_singleton.mpr rfl), rfl⟩
  | receive | pass => trivial
  | take | close => exact nofun
  | give | again => exact fun hFinished => absurd (hFits.symm.trans hFinished) Bool.false_ne_true
  | finish =>
      -- The end is in hand, so it comes right behind all that has been given.
      have hTurn := hSound.inTurn hFits
      rw [List.append_assoc] at hTurn
      exact fun _ => (History.complete_of_words hTurn).append rfl
  | cancel => exact Earned.append (r := .draining _) hEarned rfl
  | drop => exact Earned.append (r := .draining _) hEarned rfl
  | leave => exact fun _ => ⟨_, List.mem_append_right _ (List.mem_singleton.mpr rfl), hFits.2.2⟩

end Reader

namespace Crossing

variable {env : Environment} {capacity : Nat} {stopped : Bool} {starts : List (Emission Process)}
  {h : History} {s s' : Crossing} {d : Deed}

theorem Course.earned (course : Course env (opening capacity stopped starts) h s) :
    s.reader.Earned h s.bridge.finished := by
  induction course with
  | start => exact nofun
  | step prior last ih =>
      cases last with
      | produce hGet move =>
          rw [move.grows.finished]
          exact ih.append rfl
      | read move => exact move.earned prior.sound ih
      | stop => exact ih.append rfl

/-- A reader that is told of the end, and of nothing else that ends the stream before, has been given
all rows that were accepted before the end. -/
theorem Course.complete {before after : History}
    (course : Course env (opening capacity stopped starts) (before ++ .read (.replied none) :: after) s)
    (hBefore : ∀ x ∈ before, x.ends = false) : before.Complete := by
  obtain ⟨⟨bridge, producers, reader⟩, _, prior, step, -⟩ := course.around
  have hEarned := prior.earned
  cases step with
  | read move =>
      cases move with
      | closed hFinished =>
          -- Such a stream was over before, and the reader has been told of it.
          obtain ⟨x, hMem, hEnds⟩ := hEarned hFinished
          exact absurd ((hBefore x hMem).symm.trans hEnds) Bool.false_ne_true
      | leave => exact hEarned rfl

/-- Where the reader stands in a crossing. -/
def Fits (s : Crossing) : Prop := s.reader.Fits s.bridge.finished s.bridge.cancelled

/-- The way of the first failure to the reader, after the given history: it is kept with those that
have come behind it, it has been taken and is going to be given, or the reader is closing the bridge
without having asked for it. -/
inductive Failing (error : QueryError) (mid : History) (s : Crossing) : Prop where
  | stored (hOpen : s.bridge.finished = false) (hFirst : s.bridge.first = some error)
      (hLater : s.bridge.later = mid.failures) (hReader : s.reader ≠ .judging (some .finish))
  | taken (m₁ m₂ : History) (hMid : mid = m₁ ++ .read .took :: m₂)
      (hReader : s.reader = .shutting (.replied (some (.error (error.withSuppressed m₁.failures)))) ∨
        s.reader = .draining (.replied (some (.error (error.withSuppressed m₁.failures)))))
  | closing (hReader : s.reader = .shutting .closed ∨ s.reader = .draining .closed)

namespace Failing

variable {error : QueryError} {mid : History}

/-- A producer does not stop a failure on its way. -/
theorem produce {b : Bridge} {k : Nat} {act : Act} {p q : Producer} {producers : List Producer}
    (hFailing : Failing error mid s) (move : p.Moves env s.bridge act b q) :
    Failing error (mid ++ [.produced k act]) ⟨b, producers, s.reader⟩ := by
  cases hFailing with
  | taken m₁ m₂ hMid hReader =>
      exact .taken m₁ (m₂ ++ [.produced k act]) (by simp [hMid]) hReader
  | closing hReader => exact .closing hReader
  | stored hOpen hFirst hLater hReader =>
      obtain ⟨rfl, hUnheard⟩ | ⟨d, rfl, -, rfl⟩ | ⟨other, rfl, rfl⟩ | ⟨rfl, rfl | rfl⟩ := move.effect
      · refine .stored hOpen hFirst ?_ hReader
        simp [hLater, History.failures, (hUnheard k).2]
      · exact .stored hOpen hFirst (by simp [hLater, History.failures, Deed.failure?, Bridge.enqueue])
          hReader
      · have hNote : s.bridge.note other = { s.bridge with later := s.bridge.later ++ [other] } := by
          simp [Bridge.note, hFirst]
        rw [hNote]
        exact .stored hOpen hFirst (by simp [hLater, History.failures, Deed.failure?]) hReader
      · exact .stored hOpen hFirst (by simp [hLater, History.failures, Deed.failure?, Bridge.cancel])
          hReader
      · obtain hSame | ⟨-, hQueued⟩ := s.bridge.wake_eq
        · rw [hSame]
          exact .stored hOpen hFirst (by simp [hLater, History.failures, Deed.failure?]) hReader
        · rw [hQueued]
          exact .stored hOpen hFirst (by simp [hLater, History.failures, Deed.failure?]) hReader

/-- Nor does the reader, as long as the stream has not ended for it. -/
theorem read {b : Bridge} {glance : Glance} {r : Reader} {producers : List Producer}
    (hFailing : Failing error mid s) (hFits : s.Fits) (move : s.reader.Moves s.bridge glance b r)
    (hEnds : (Deed.read glance).ends = false) :
    Failing error (mid ++ [.read glance]) ⟨b, producers, r⟩ := by
  obtain ⟨bridge, others, reader⟩ := s
  have hFailures (hUnheard : (Deed.read glance).failure? = none) :
      History.failures (mid ++ [.read glance]) = mid.failures := by
    simp [History.failures, hUnheard]
  cases hFailing with
  | stored hOpen hFirst hLater hReader =>
      cases move with
      | ask => exact .stored hOpen hFirst (hLater.trans (hFailures rfl).symm) (by simp)
      | receive =>
          rw [bridge.dequeue_eq.2]
          exact .stored hOpen hFirst (hLater.trans (hFailures rfl).symm) (by simp)
      | take hError =>
          obtain ⟨first, hSome, rfl, -⟩ := Bridge.takeError_eq_some hError
          obtain rfl : error = first := Option.some.inj (hFirst.symm.trans hSome)
          exact .taken mid [] rfl (.inl (by rw [← hLater]))
      | pass hNone => exact absurd (hFirst.symm.trans hNone) (Option.some_ne_none error)
      | give => exact .stored hOpen hFirst (hLater.trans (hFailures rfl).symm) (by simp)
      | finish => exact absurd rfl hReader
      | again => exact .stored hOpen hFirst (hLater.trans (hFailures rfl).symm) (by simp)
      | close => exact .closing (.inl rfl)
      | closed => simp [Deed.ends] at hEnds
      | cancel | drop | leave => exact absurd (hOpen.symm.trans hFits.1) Bool.false_ne_true
  | taken m₁ m₂ hMid hReader =>
      subst hMid
      rcases hReader with rfl | rfl
      · cases move with
        | cancel => exact .taken m₁ (m₂ ++ [.read .inner]) (by simp) (.inr rfl)
      · cases move with
        | drop => exact .taken m₁ (m₂ ++ [.read .inner]) (by simp) (.inr rfl)
        | leave => simp [Deed.ends] at hEnds
  | closing hReader =>
      rcases hReader with rfl | rfl
      · cases move with
        | cancel => exact .closing (.inr rfl)
      · cases move with
        | drop => exact .closing (.inr rfl)
        | leave => simp [Deed.ends] at hEnds

/-- The stream ends with the failure, unless the bridge is closed. -/
theorem ends {b : Bridge} {glance : Glance} {r : Reader} (hFailing : Failing error mid s)
    (hFits : s.Fits) (move : s.reader.Moves s.bridge glance b r)
    (hEnds : (Deed.read glance).ends = true) :
    glance = .closed ∨ ∃ m₁ m₂ : History, mid = m₁ ++ .read .took :: m₂ ∧
      glance = .replied (some (.error (error.withSuppressed m₁.failures))) := by
  obtain ⟨bridge, others, reader⟩ := s
  cases hFailing with
  | stored hOpen hFirst hLater hReader =>
      cases move with
      | closed hFinished => exact absurd (hOpen.symm.trans hFinished) nofun
      | leave => exact absurd (hOpen.symm.trans hFits.1) nofun
      | _ => simp [Deed.ends] at hEnds
  | taken m₁ m₂ hMid hReader =>
      rcases hReader with rfl | rfl
      · cases move with
        | cancel => simp [Deed.ends] at hEnds
      · cases move with
        | drop => simp [Deed.ends] at hEnds
        | leave => exact .inr ⟨m₁, m₂, hMid, rfl⟩
  | closing hReader =>
      rcases hReader with rfl | rfl
      · cases move with
        | cancel => simp [Deed.ends] at hEnds
      · cases move with
        | drop => simp [Deed.ends] at hEnds
        | leave => exact .inl rfl

/-- A reader that asks next is given the failure. -/
theorem answered (hFailing : Failing error mid s) (hReader : s.reader = .resting) :
    ∃ glances b', s.reader.Runs s.bridge
      (.asked :: glances ++ [.replied (some (.error (error.withSuppressed mid.failures)))]) b'
      .resting := by
  cases hFailing with
  | stored hOpen hFirst hLater =>
      have hError : s.bridge.dequeue.2.takeError.1 = some (error.withSuppressed mid.failures) := by
        rw [s.bridge.dequeue_eq.2]
        simp [Bridge.takeError, hFirst, hLater]
      rw [hReader]
      obtain ⟨glances, b', hRuns⟩ := Reader.leads_holding hError s.bridge.dequeue.1
      exact ⟨_ :: glances, b', .step .ask (.step (.receive hOpen) hRuns)⟩
  | taken m₁ m₂ hMid hOther => simp [hReader] at hOther
  | closing hOther => simp [hReader] at hOther

theorem stop (hFailing : Failing error mid s) :
    Failing error (mid ++ [.outerStopped])
      { s with bridge := { s.bridge with outerClosed := true } } := by
  cases hFailing with
  | stored hOpen hFirst hLater hReader =>
      exact .stored hOpen hFirst (by simp [hLater, History.failures, Deed.failure?]) hReader
  | taken m₁ m₂ hMid hReader => exact .taken m₁ (m₂ ++ [.outerStopped]) (by simp [hMid]) hReader
  | closing hReader => exact .closing hReader

end Failing

/-- From its report on, the first failure is on its way, if it does not come too late. -/
theorem Course.failing {before mid : History} {k : Nat} {error : QueryError}
    (course : Course env (opening capacity stopped starts)
      (before ++ .produced k (.noted error) :: mid) s)
    (hBefore : before.Unfailed) (hMid : ∀ d ∈ mid, d.ends = false) : Failing error mid s := by
  induction mid using List.reverseRecOn generalizing s with
  | nil =>
      obtain ⟨s, prior, last⟩ := course.last
      obtain ⟨hOpen, hNone, hLater⟩ := prior.sound.unfailed hBefore
      cases last with
      | produce hGet move =>
          cases move with
          | note =>
              have hNote : s.bridge.note error = { s.bridge with first := some error } := by
                simp [Bridge.note, hNone]
              rw [hNote]
              exact .stored hOpen rfl hLater fun hReader =>
                hBefore.no_end (prior.sound.finish_received (by rw [hReader]; rfl))
  | append_singleton mid d ih =>
      rw [← List.cons_append, ← List.append_assoc] at course
      obtain ⟨s, prior, last⟩ := course.last
      have hFailing := ih prior fun x hMem => hMid x (List.mem_append_left _ hMem)
      cases last with
      | produce hGet move => exact hFailing.produce move
      | read move => exact hFailing.read prior.sound.fits move (hMid _ (by simp))
      | stop => exact hFailing.stop

/-- The stream is over for the reader, and the producers are stopped. -/
def Quiet (s : Crossing) : Prop :=
  s.bridge.finished = true ∧ s.bridge.cancelled = true ∧
    (s.reader = .resting ∨ s.reader = .looking ∨ s.reader = .shutting .closed ∨
      s.reader = .draining .closed)

/-- Nobody takes back that the producers are stopped, or that the stream is over. -/
theorem Step.monotone (step : Step env s d s') :
    (s.bridge.finished = true → s'.bridge.finished = true) ∧
      (s.bridge.cancelled = true → s'.bridge.cancelled = true) := by
  cases step with
  | produce hGet move => exact ⟨fun hFinished => move.grows.finished ▸ hFinished, move.grows.cancelled⟩
  | read move =>
      obtain ⟨bridge, producers, reader⟩ := s
      cases move with
      | receive | drop =>
          rw [bridge.dequeue_eq.2]
          exact ⟨id, id⟩
      | take hError =>
          obtain ⟨-, -, -, hTaken⟩ := Bridge.takeError_eq_some hError
          rw [hTaken]
          exact ⟨fun _ => rfl, id⟩
      | finish | close => exact ⟨fun _ => rfl, id⟩
      | cancel => exact ⟨id, fun _ => rfl⟩
      | _ => exact ⟨id, id⟩
  | stop => exact ⟨id, id⟩

/-- What ends the stream leaves it quiet. -/
theorem Step.quiet (step : Step env s d s') (hFits : s.Fits) (hEnds : d.ends = true) : s'.Quiet := by
  cases step with
  | read move =>
      obtain ⟨bridge, producers, reader⟩ := s
      cases move with
      | closed hFinished => exact ⟨hFinished, hFits hFinished, .inl rfl⟩
      | leave hEmpty => exact ⟨hFits.1, hFits.2.1, .inl rfl⟩
      | _ => simp [Deed.ends] at hEnds
  | _ => simp [Deed.ends] at hEnds

/-- A quiet stream stays so, and the reader is told of nothing but its end. -/
theorem Quiet.step (hQuiet : s.Quiet) (step : Step env s d s') :
    s'.Quiet ∧ ∀ item, d = .read (.replied item) → item = none := by
  obtain ⟨hFinished, hCancelled, hReader⟩ := hQuiet
  have hMonotone := step.monotone
  refine ⟨⟨hMonotone.1 hFinished, hMonotone.2 hCancelled, ?_⟩, ?_⟩
  · cases step with
    | produce | stop => exact hReader
    | read move =>
        obtain ⟨bridge, producers, reader⟩ := s
        obtain rfl | rfl | rfl | rfl := hReader <;> cases move <;> simp
        next hOpen => exact absurd (hOpen.symm.trans hFinished) nofun
  · cases step with
    | produce | stop => exact nofun
    | read move =>
        obtain ⟨bridge, producers, reader⟩ := s
        obtain rfl | rfl | rfl | rfl := hReader <;> cases move <;> simp

theorem Quiet.course (hQuiet : s.Quiet) (course : Course env s h s') :
    s'.Quiet ∧ ∀ item, .read (.replied item) ∈ h → item = none := by
  induction course with
  | start => exact ⟨hQuiet, by simp⟩
  | step prior last ih =>
      obtain ⟨hBefore, hReplies⟩ := ih
      obtain ⟨hAfter, hReply⟩ := hBefore.step last
      refine ⟨hAfter, fun item hMem => ?_⟩
      rw [List.mem_append, List.mem_singleton] at hMem
      exact hMem.elim (hReplies item) fun hEq => hReply item hEq.symm

/-- A producer is about to look whether the bridge is closed, and it is. -/
def Vain (k : Nat) (delivery : Delivery) (s : Crossing) : Prop :=
  s.bridge.cancelled = true ∧ ∃ next, s.producers[k]? = some (.pushing delivery next)

/-- Such a producer can do nothing but have its push refused. -/
theorem Vain.step {k : Nat} {delivery : Delivery} (hVain : s.Vain k delivery)
    (step : Step env s d s') :
    if d.isOf k then d = .produced k (.refused delivery) else s'.Vain k delivery := by
  obtain ⟨hCancelled, next, hGet⟩ := hVain
  have hStays := step.monotone.2 hCancelled
  cases step with
  | @produce b j act p q hOther move =>
      by_cases hSame : j = k
      · subst hSame
        obtain rfl : p = .pushing delivery next := Option.some.inj (hOther.symm.trans hGet)
        have hClosed : s.bridge.isClosed = true := by simp [Bridge.isClosed, hCancelled]
        cases move with
        | refuse => simp [Deed.isOf]
        | look hOpen => exact absurd (hOpen.symm.trans hClosed) nofun
      · simpa [Deed.isOf, hSame, Vain, List.getElem?_set_ne hSame] using ⟨hStays, next, hGet⟩
  | read => exact ⟨hStays, next, hGet⟩
  | stop => exact ⟨hStays, next, hGet⟩

theorem Vain.course {k : Nat} {delivery : Delivery} (hVain : s.Vain k delivery)
    (course : Course env s h s') (hOthers : ∀ d ∈ h, d.isOf k = false) : s'.Vain k delivery := by
  induction course with
  | start => exact hVain
  | @step h s s' d prior last ih =>
      have hStep := (ih fun x hMem => hOthers x (List.mem_append_left _ hMem)).step last
      simpa [hOthers d (by simp)] using hStep

theorem Vain.refuse {k : Nat} {delivery : Delivery} (hVain : s.Vain k delivery) :
    ∃ s', Step env s (.produced k (.refused delivery)) s' := by
  obtain ⟨hCancelled, next, hGet⟩ := hVain
  exact ⟨_, .produce hGet (.refuse (by simp [Bridge.isClosed, hCancelled]))⟩

/-- A push that begins when the stream is quiet is in vain. -/
theorem Quiet.vain {k : Nat} {delivery : Delivery} (hQuiet : s.Quiet)
    (course : Course env s (.produced k (.offered delivery) :: h) s')
    (hOthers : ∀ d ∈ h, d.isOf k = false) : s'.Vain k delivery := by
  obtain ⟨_, offered, hNone, offer, hLater⟩ := Course.around (h := []) course
  obtain rfl := hNone.eq_of_nil
  refine Vain.course ⟨offer.monotone.2 hQuiet.2.1, ?_⟩ hLater hOthers
  cases offer with
  | produce hGet move =>
      obtain ⟨hLt, -⟩ := List.getElem?_eq_some_iff.mp hGet
      cases move with
      | offerRow | offerFinish => exact ⟨_, List.getElem?_set_self hLt⟩

/-- It is refused, if it comes to its end. -/
theorem Quiet.refuses {k : Nat} {delivery : Delivery} {act : Deed} (hQuiet : s.Quiet)
    (course : Course env s (.produced k (.offered delivery) :: h) s')
    (hNext : h.find? (Deed.isOf k) = some act) : act = .produced k (.refused delivery) := by
  obtain ⟨hOf, between, rest, rfl, hOthers⟩ := List.find?_eq_some_iff_append.mp hNext
  rw [← List.cons_append] at course
  obtain ⟨before, after, hBetween, step, -⟩ := course.around
  simpa [hOf] using (hQuiet.vain hBetween (by simpa using hOthers)).step step

/-- What ends the stream makes it quiet. -/
theorem Course.quiet {before after : History}
    (course : Course env (opening capacity stopped starts) (before ++ d :: after) s)
    (hEnds : d.ends = true) : ∃ middle, middle.Quiet ∧ Course env middle after s := by
  obtain ⟨_, middle, prior, step, hAfter⟩ := course.around
  exact ⟨middle, step.quiet prior.sound.fits hEnds, hAfter⟩

/-- What a bridge promises to its producers and to its reader, after everything that has been done. -/
structure Faithful (env : Environment) (capacity : Nat) (h : History) (s : Crossing) : Prop where
  /-- No more waits than there is room for. -/
  bounded : s.bridge.queue.length ≤ max 1 capacity
  /-- The reader is given the rows in the order in which they were accepted, without gaps. -/
  inOrder : h.returned <+: h.accepted
  /-- Until the stream is over none is lost: the reader has been given it, has it in hand or can still
  take it. -/
  lossless : s.bridge.finished = false → h.accepted = h.returned ++ s.reader.rows ++ s.bridge.rows
  /-- A call gives what was accepted behind all that has been given, a row or the end, if there has been
  no failure and the reader is left to itself. -/
  next : ∀ (word : Option Solution) (later : List (Option Solution)),
    h.words = h.returned.map some ++ word :: later → h.Unfailed → s.reader = .resting →
      ∃ glances b', s.reader.Runs s.bridge (.asked :: glances ++ [.replied (word.map .ok)]) b' .resting
  /-- An end that comes without a failure, and not behind another, comes behind all rows that were
  accepted before the first end. -/
  complete : ∀ before after : History, h = before ++ .read (.replied none) :: after →
    (∀ x ∈ before, x.ends = false) → before.Complete
  /-- If the first failure does not come too late, the stream ends with it, together with those that
  were reported until it was taken, unless the bridge is closed first. -/
  failure : ∀ (before mid after : History) (k : Nat) (error : QueryError) (d : Deed),
    h = before ++ .produced k (.noted error) :: (mid ++ d :: after) → before.Unfailed →
      (∀ x ∈ mid, x.ends = false) → d.ends = true →
      d = .read .closed ∨ ∃ m₁ m₂ : History, mid = m₁ ++ .read .took :: m₂ ∧
        d = .read (.replied (some (.error (error.withSuppressed m₁.failures))))
  /-- Until then it is what the next call of the reader gives, if the reader is left to itself. -/
  failureNext : ∀ (before mid : History) (k : Nat) (error : QueryError),
    h = before ++ .produced k (.noted error) :: mid → before.Unfailed →
      (∀ x ∈ mid, x.ends = false) → s.reader = .resting → ∃ glances b', s.reader.Runs s.bridge
        (.asked :: glances ++ [.replied (some (.error (error.withSuppressed mid.failures)))]) b' .resting
  /-- After the end of the stream the reader is given nothing, and this at once. -/
  silent : ∀ (before after : History) (d : Deed), h = before ++ d :: after → d.ends = true →
    (∀ item, .read (.replied item) ∈ after → item = none) ∧
      (s.reader = .resting → s.reader.Runs s.bridge [.asked, .replied none] s.bridge .resting)
  /-- A push that begins after the end of the stream is refused, and this at once. -/
  refusing : ∀ (before mid after : History) (d : Deed) (k : Nat) (delivery : Delivery),
    h = before ++ d :: (mid ++ .produced k (.offered delivery) :: after) → d.ends = true →
      match after.find? (Deed.isOf k) with
      | some act => act = .produced k (.refused delivery)
      | none => ∃ s', Step env s (.produced k (.refused delivery)) s'

/-- Whatever producers, reader and the query around do, and in whatever order they do it, the bridge
keeps its promises. -/
theorem bridge_faithful (course : Course env (opening capacity stopped starts) h s) :
    Faithful env capacity h s where
  bounded := by
    have hSound := course.sound
    exact hSound.capacity_eq ▸ hSound.bounded
  inOrder := course.sound.inOrder
  lossless := course.sound.waiting
  next word later hWords hUnfailed hReader := by
    obtain ⟨hOpen, hNone, -⟩ := course.sound.unfailed hUnfailed
    have hTurn := course.sound.inTurn hOpen
    rw [hReader, hWords, List.append_assoc] at hTurn
    obtain ⟨glances, b', hRuns⟩ := Reader.leads_word hOpen hNone (List.append_cancel_left hTurn).symm
    rw [hReader]
    exact ⟨glances, b', .step .ask hRuns⟩
  complete before after hHistory hBefore := by
    subst hHistory
    exact course.complete hBefore
  failure before mid after k error d hHistory hBefore hMid hEnds := by
    subst hHistory
    rw [← List.cons_append, ← List.append_assoc] at course
    obtain ⟨last, _, prior, step, -⟩ := course.around
    have hFailing := prior.failing hBefore hMid
    cases step with
    | produce | stop => simp [Deed.ends] at hEnds
    | read move => simpa using hFailing.ends prior.sound.fits move hEnds
  failureNext before mid k error hHistory hBefore hMid hReader := by
    subst hHistory
    exact (course.failing hBefore hMid).answered hReader
  silent before after d hHistory hEnds := by
    subst hHistory
    obtain ⟨middle, hQuiet, hAfter⟩ := course.quiet hEnds
    obtain ⟨hNow, hReplies⟩ := hQuiet.course hAfter
    refine ⟨hReplies, fun hReader => ?_⟩
    rw [hReader]
    exact .step .ask (.step (.closed hNow.1) .rest)
  refusing before mid after d k delivery hHistory hEnds := by
    subst hHistory
    obtain ⟨middle, hQuiet, hAfter⟩ := course.quiet hEnds
    obtain ⟨later, hMid, hOffer⟩ := hAfter.split
    have hLater := (hQuiet.course hMid).1
    split
    next act hNext => exact hLater.refuses hOffer hNext
    next hNone => exact (hLater.vain hOffer (by simpa using hNone)).refuse

/-- Two producers on a bridge with room for one row: a row is accepted and given to the reader, another
is accepted, both producers fail, and the reader is given the two failures instead of the second row. -/
theorem bridge_faithful_failures :
    let env : Environment := .ofDataset .empty
    let one : Solution := .ofList [("x", .integer 1)]
    let two : Solution := .ofList [("x", .integer 2)]
    let first : QueryError := .evaluation "first"
    let second : QueryError := .evaluation "second"
    let telling : Emission Process := .emit one fun _ => .emit two fun _ => .fail first (.done .idle)
    let failing : Emission Process := .fail second (.done .idle)
    ∃ (h : History) (s : Crossing), Course env (opening 0 false [telling, failing]) h s ∧
      h.accepted = [one, two] ∧ h.returned = [one] ∧ h.failures = [first, second] ∧
      .read (.replied (some (.error (.chained first [second])))) ∈ h ∧ Faithful env 0 h s := by
  intro env one two first second telling failing
  have pushed : Course env (opening 0 false [telling, failing])
      [.produced 0 (.offered (.row one)), .produced 0 .inner, .produced 0 (.accepted (.row one))]
      ⟨⟨1, [.row one], false, false, none, [], false⟩,
        [.saying (.emit two fun _ => .fail first (.done .idle)), .saying failing], .resting⟩ :=
    ((Course.start.step (.produce rfl .offerRow)).step (.produce rfl (.look rfl))).step
      (.produce rfl (.accept rfl))
  have given : Course env _ _
      ⟨⟨1, [], false, false, none, [], false⟩,
        [.saying (.emit two fun _ => .fail first (.done .idle)), .saying failing], .resting⟩ :=
    (((pushed.step (.read .ask)).step (.read (.receive rfl))).step (.read (.pass rfl))).step
      (.read .give)
  have filled : Course env _ _
      ⟨⟨1, [.row two], false, false, none, [], false⟩,
        [.saying (.fail first (.done .idle)), .saying failing], .resting⟩ :=
    ((given.step (.produce (k := 0) rfl .offerRow)).step (.produce (k := 0) rfl (.look rfl))).step
      (.produce (k := 0) rfl (.accept rfl))
  have failed : Course env _ _
      ⟨⟨1, [.row two], false, false, some first, [second], false⟩,
        [.cancelling (.done .idle), .cancelling (.done .idle)], .resting⟩ :=
    (filled.step (.produce (k := 0) rfl .note)).step (.produce (k := 1) rfl .note)
  have taken : Course env _ _
      ⟨⟨1, [], false, false, none, [], true⟩, [.cancelling (.done .idle), .cancelling (.done .idle)],
        .shutting (.replied (some (.error (.chained first [second]))))⟩ :=
    ((failed.step (.read .ask)).step (.read (.receive rfl))).step (.read (.take rfl))
  have course := (taken.step (.read .cancel)).step (.read (.leave rfl))
  refine ⟨_, _, course, ?_, ?_, ?_, by simp, bridge_faithful course⟩
  · simp [History.accepted, List.filterMap_cons, Deed.accepted?, Delivery.row?]
  · simp [History.returned, List.filterMap_cons, Deed.returned?]
  · simp [History.failures, List.filterMap_cons, Deed.failure?]

end Crossing

end SolutionFlow
