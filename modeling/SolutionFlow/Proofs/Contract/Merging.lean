import SolutionFlow.Proofs.Flow.Answers

/-! Merges of streams. A completion counts the streams that have not ended, and the last of them to
end ends the merge, so that its end comes once, and after all that any of the streams has said. The
invariant relates the counter to the streams, however many there are and in whatever order they
speak. -/
namespace SolutionFlow

namespace Completion

/-- What a merge can make of an event of one of its streams. It may hand on another row than the one
it has been given, hand on one more row at the end, or, if it has failures of its `own`, fail in place
of accepting a row. -/
def Hears (c : Completion) (own : Bool) : Event → Trace → Completion → Prop
  | .row _ more, t, c' =>
      (t = [] ∧ c' = c ∧ (more = true ∨ c.stopped = true)) ∨
      (∃ row, (c.forward row).Says t (more, c')) ∨
      (own = true ∧ more = false ∧ (∃ error, t = [.fail error]) ∧ c' = c)
  | .finish, t, c' =>
      c.finish.Says t c' ∨
      ∃ row t₁ more c₁ t₂, (c.forward row).Says t₁ (more, c₁) ∧ c₁.finish.Says t₂ c' ∧ t = t₁ ++ t₂
  | .fail error, t, c' => t = [.fail error] ∧ c' = c

/-- A merge has said `said` to what its streams have said so far. -/
structure Merges (c : Completion) (streams : List Trace) (said : Trace) : Prop where
  count : c.openStreams = streams.countP fun s => !s.ended
  stopped : c.stopped = said.refused
  orderly : said.Orderly
  ended : said.ended = true ↔ c.openStreams = 0 ∧ c.stopped = false
  refused : ∀ s ∈ streams, s.refused = true → said.refused = true ∨ said.failed = true
  failed : ∀ s ∈ streams, s.failed = true → said.failed = true
  blamed : said.failed = true → ∃ s ∈ streams, s.failed = true ∨ s.refused = true

/-- What some item of a list has, some item has when one of them is replaced that has it still. -/
theorem exists_of_replace {α : Type} {P : α → Prop} {before after : List α} {s s' : α}
    (hKept : P s → P s') (h : ∃ x ∈ before ++ s :: after, P x) :
    ∃ x ∈ before ++ s' :: after, P x := by
  obtain ⟨x, hMem, hHolds⟩ := h
  rcases List.mem_append.mp hMem with hBefore | hRest
  · exact ⟨x, List.mem_append_left _ hBefore, hHolds⟩
  · rcases List.mem_cons.mp hRest with rfl | hAfter
    · exact ⟨s', by simp, hKept hHolds⟩
    · exact ⟨x, by simp [hAfter], hHolds⟩

namespace Merges

variable {c c' : Completion} {streams before after : List Trace} {said s s' t : Trace}

/-- At first, nothing has been said. -/
theorem new {n : Nat} (hPositive : 0 < n) : Merges (.new n) (List.replicate n []) [] where
  count := by simp [Completion.new, List.countP_replicate]
  stopped := rfl
  orderly := Trace.orderly_nil
  ended := by simp [Completion.new, Nat.ne_of_gt hPositive]
  refused s hMem hRefused := by simp [List.eq_of_mem_replicate hMem] at hRefused
  failed s hMem hFailed := by simp [List.eq_of_mem_replicate hMem] at hFailed
  blamed hFailed := by simp at hFailed

/-- While a stream is open, the merge has not ended. -/
theorem ended_eq_false (h : Merges c streams said) (hMem : s ∈ streams) (hOpen : s.ended = false) :
    said.ended = false ∧ 0 < c.openStreams := by
  have hPositive : 0 < c.openStreams := by
    rw [h.count, List.countP_pos_iff]
    exact ⟨s, hMem, by simp [hOpen]⟩
  refine ⟨?_, hPositive⟩
  rw [← Bool.not_eq_true, h.ended]
  exact fun hDone => Nat.ne_of_gt hPositive hDone.1

/-- While the left stream has not ended, another stream can be opened. -/
theorem begin (h : Merges c streams said) (hOpen : said.ended = false) :
    Merges c.begin (streams ++ [[]]) said where
  count := by simp [Completion.begin, h.count]
  stopped := h.stopped
  orderly := h.orderly
  ended := by simp [Completion.begin, hOpen]
  refused := by
    simp only [List.forall_mem_append, List.forall_mem_singleton]
    exact ⟨h.refused, by simp⟩
  failed := by
    simp only [List.forall_mem_append, List.forall_mem_singleton]
    exact ⟨h.failed, by simp⟩
  blamed hFailed := by
    obtain ⟨s, hMem, hBlame⟩ := h.blamed hFailed
    exact ⟨s, List.mem_append_left _ hMem, hBlame⟩

/-- A row may be handed on as long as the merge has not ended. -/
theorem forward {row : Solution} {more : Bool} (h : Merges c streams said)
    (hOpen : said.ended = false) (hPositive : 0 < c.openStreams)
    (hSays : (c.forward row).Says t (more, c')) : Merges c' streams (said ++ t) := by
  obtain ⟨-, -, rfl, rfl⟩ | ⟨hGoing, rfl, rfl⟩ := says_forward.mp hSays
  · simpa using h
  · have hStill : said.refused = false := h.stopped.symm.trans hGoing
    exact {
      count := h.count
      stopped := by simp [hStill]
      orderly := by
        rw [Trace.orderly_concat]
        exact ⟨h.orderly, by simp [hOpen, hStill]⟩
      ended := by simp [hOpen, Nat.ne_of_gt hPositive]
      refused := fun s hMem hRefused => by
        have hFailed := (h.refused s hMem hRefused).resolve_left (by simp [hStill])
        exact .inr (by simp [hFailed])
      failed := fun s hMem hFailed => by simp [h.failed s hMem hFailed]
      blamed := fun hFailed => h.blamed (by simpa using hFailed) }

/-- A stream may go on in silence, as long as its end is not missed and its failures are known. -/
theorem replace (h : Merges c (before ++ s :: after) said) (hEnded : s'.ended = s.ended)
    (hRefused : s'.refused = true → said.refused = true ∨ said.failed = true)
    (hFailed : s'.failed = true → said.failed = true)
    (hKept : s.failed = true ∨ s.refused = true → s'.failed = true ∨ s'.refused = true) :
    Merges c (before ++ s' :: after) said := by
  obtain ⟨hCount, hStopped, hOrderly, hEnd, hRefuses, hFails, hBlamed⟩ := h
  simp only [List.forall_mem_append, List.forall_mem_cons] at hRefuses hFails
  refine ⟨?_, hStopped, hOrderly, hEnd, ?_, ?_, fun hSaid => ?_⟩
  · rw [hCount]
    simp [List.countP_cons, hEnded]
  · simp only [List.forall_mem_append, List.forall_mem_cons]
    exact ⟨hRefuses.1, hRefused, hRefuses.2.2⟩
  · simp only [List.forall_mem_append, List.forall_mem_cons]
    exact ⟨hFails.1, hFailed, hFails.2.2⟩
  · exact exists_of_replace hKept (hBlamed hSaid)

/-- A failure is handed on for a stream that has failed or has been refused a row. -/
theorem fail {error : QueryError} (h : Merges c (before ++ s :: after) said)
    (hEnded : s'.ended = s.ended) (hBlame : s'.failed = true ∨ s'.refused = true) :
    Merges c (before ++ s' :: after) (said ++ [.fail error]) := by
  have hSaid : Trace.failed (said ++ [.fail error]) = true := by simp
  obtain ⟨hCount, hStopped, hOrderly, hEnd, -, -, -⟩ := h
  refine ⟨?_, by simp [hStopped], ?_, by simp [hEnd], fun _ _ _ => .inr hSaid, fun _ _ _ => hSaid,
    fun _ => ⟨s', by simp, hBlame⟩⟩
  · rw [hCount]
    simp [List.countP_cons, hEnded]
  · rw [Trace.orderly_concat]
    exact ⟨hOrderly, fun _ => rfl⟩

/-- The end of a stream is the end of the merge if no other stream is open. -/
theorem finish (h : Merges c (before ++ s :: after) said) (hOpen : s.ended = false)
    (hSays : c.finish.Says t c') : Merges c' (before ++ (s ++ [.finish]) :: after) (said ++ t) := by
  obtain ⟨hEnded, hPositive⟩ := h.ended_eq_false (List.mem_append_right before List.mem_cons_self) hOpen
  obtain ⟨hCount, hStopped, hOrderly, -, hRefuses, hFails, hBlamed⟩ := h
  simp only [List.forall_mem_append, List.forall_mem_cons] at hRefuses hFails
  obtain ⟨rfl, rfl⟩ := says_finish.mp hSays
  have hCloses : Trace.refused (said ++ if c.openStreams = 1 ∧ c.stopped = false then [.finish]
      else []) = said.refused ∧
      Trace.failed (said ++ if c.openStreams = 1 ∧ c.stopped = false then [.finish] else []) =
        said.failed := by
    split <;> simp
  rw [List.countP_append, List.countP_cons_of_pos (by simp [hOpen])] at hCount
  refine ⟨?_, ?_, ?_, ?_, ?_, ?_, ?_⟩
  · simp [hCount]
  · exact hStopped.trans hCloses.1.symm
  · split
    next hLast =>
      rw [Trace.orderly_concat]
      exact ⟨hOrderly, by simp [hEnded, ← hStopped, hLast.2]⟩
    next => simpa using hOrderly
  · by_cases hLast : c.openStreams = 1 ∧ c.stopped = false
    · simp [hLast]
    · simp only [hLast, ↓reduceIte, List.append_nil, hEnded, Bool.false_eq_true, false_iff]
      rintro ⟨hNone, hGoing⟩
      exact hLast ⟨by omega, hGoing⟩
  · simp only [List.forall_mem_append, List.forall_mem_cons, hCloses]
    exact ⟨hRefuses.1, by simpa using hRefuses.2.1, hRefuses.2.2⟩
  · simp only [List.forall_mem_append, List.forall_mem_cons, hCloses]
    exact ⟨hFails.1, by simpa using hFails.2.1, hFails.2.2⟩
  · rw [hCloses.2]
    intro hSaid
    exact exists_of_replace (by simp) (hBlamed hSaid)

/-- Whatever a stream says next, the merge remains one. -/
theorem hear {e : Event} {own : Bool} (h : Merges c (before ++ s :: after) said)
    (hOrderly : Trace.Orderly (s ++ [e])) (hHears : c.Hears own e t c') :
    Merges c' (before ++ (s ++ [e]) :: after) (said ++ t) := by
  have hMem : s ∈ before ++ s :: after := by simp
  cases e with
  | fail error =>
      obtain ⟨rfl, rfl⟩ := hHears
      exact h.fail (by simp) (by simp)
  | finish =>
      have hOpen := (hOrderly.still_open rfl).1
      obtain hSays | ⟨row, t₁, more, c₁, t₂, hForward, hSays, rfl⟩ := hHears
      · exact h.finish hOpen hSays
      · obtain ⟨hEnded, hPositive⟩ := h.ended_eq_false hMem hOpen
        rw [← List.append_assoc]
        exact (h.forward hEnded hPositive hForward).finish hOpen hSays
  | row row more =>
      obtain ⟨hOpen, hFresh⟩ := hOrderly.still_open rfl
      have hKept : s.failed = true ∨ s.refused = true →
          Trace.failed (s ++ [.row row more]) = true ∨
            Trace.refused (s ++ [.row row more]) = true := by
        rintro (hFailed | hRefused)
        · exact .inl (by simp [hFailed])
        · exact .inr (by simp [hRefused])
      obtain ⟨rfl, rfl, hReply⟩ | ⟨other, hForward⟩ | ⟨-, rfl, ⟨error, rfl⟩, rfl⟩ :=
        hHears
      · rw [List.append_nil]
        refine h.replace (by simp) (fun hRefused => .inl ?_) ?_ hKept
        · rw [← h.stopped]
          obtain rfl | hStopped := hReply
          · simp [hFresh] at hRefused
          · exact hStopped
        · simpa [hFresh] using h.failed s hMem
      · obtain ⟨hEnded, hPositive⟩ := h.ended_eq_false hMem hOpen
        have next := h.forward hEnded hPositive hForward
        refine next.replace (by simp) (fun hRefused => .inl ?_) ?_ hKept
        · rw [← next.stopped]
          obtain ⟨hStopped, -, -, rfl⟩ | ⟨-, -, rfl⟩ := says_forward.mp hForward
          · exact hStopped
          · simpa [hFresh] using hRefused
        · simpa using next.failed s hMem
      · exact h.fail (by simp) (by simp)

theorem hear_first {e : Event} {own : Bool} (h : Merges c (s :: after) said)
    (hOrderly : Trace.Orderly (s ++ [e])) (hHears : c.Hears own e t c') :
    Merges c' ((s ++ [e]) :: after) (said ++ t) := by
  have hAll : Merges c ([] ++ s :: after) said := h
  exact hAll.hear hOrderly hHears

/-- When all streams are over, so is the merge. -/
theorem isOver (h : Merges c streams said) (hOver : ∀ s ∈ streams, s.isOver = true) :
    said.isOver = true := by
  simp only [Trace.isOver, Bool.or_eq_true] at hOver ⊢
  by_cases hAll : ∀ s ∈ streams, s.ended = true
  · have hNone : c.openStreams = 0 := by
      rw [h.count, List.countP_eq_zero]
      simpa using hAll
    cases hStopped : c.stopped with
    | false => exact .inl (.inl (h.ended.mpr ⟨hNone, hStopped⟩))
    | true => exact .inl (.inr (h.stopped.symm.trans hStopped))
  · obtain ⟨s, hMem, hOpen⟩ : ∃ s ∈ streams, ¬s.ended = true := by simpa using hAll
    rcases hOver s hMem with (hEnded | hRefused) | hFailed
    · exact absurd hEnded hOpen
    · exact (h.refused s hMem hRefused).imp .inr id
    · exact .inr (h.failed s hMem hFailed)

/-- The merge ends only when all streams have. -/
theorem ended_of_ended (h : Merges c streams said) (hEnded : said.ended = true) :
    ∀ s ∈ streams, s.ended = true := by
  have hNone := (h.ended.mp hEnded).1
  rw [h.count, List.countP_eq_zero] at hNone
  simpa using hNone

/-- The end of a merge can be trusted if those of all streams can. -/
theorem certified (h : Merges c streams said)
    (hStreams : ∀ s ∈ streams, s.Orderly ∧ s.Certified) : said.Certified := by
  rintro ⟨hEnded, hFailed⟩
  obtain ⟨s, hMem, hFails | hRefused⟩ := h.blamed hFailed
  · exact (hStreams s hMem).2 ⟨h.ended_of_ended hEnded s hMem, hFails⟩
  · have hFresh := (hStreams s hMem).1.not_refused (h.ended_of_ended hEnded s hMem)
    simp [hFresh] at hRefused

end Merges

/-- A merge without failures of its own fails only when one of its streams does, and refuses rows
only when it has been refused one. -/
structure Follows (c : Completion) (streams : List Trace) (said : Trace) : Prop where
  stopped : c.stopped = said.refused
  refused : ∀ s ∈ streams, s.refused = true → said.refused = true
  failed : said.failed = true → ∃ s ∈ streams, s.failed = true

namespace Follows

variable {c c' : Completion} {streams before after : List Trace} {said s t : Trace}

/-- All that such a merge says to an event, as far as refusals and failures go. -/
theorem hears_calmly {e : Event} (hHears : c.Hears false e t c') :
    c'.stopped = (c.stopped || t.refused) ∧
      (e.isRefusal = true → c.stopped = true ∨ t.refused = true) ∧
      (t.failed = true → e.isFailure = true) := by
  have hForward : ∀ {row t more c'}, (c.forward row).Says t (more, c') →
      c'.stopped = (c.stopped || t.refused) ∧
        (more = false → c.stopped = true ∨ t.refused = true) ∧ t.failed = false := by
    intro row t more c' hSays
    obtain ⟨hStopped, rfl, rfl, rfl⟩ | ⟨hGoing, rfl, rfl⟩ := says_forward.mp hSays
    · simp [hStopped]
    · simp [hGoing]
  have hFinish : ∀ {c t c'}, finish c |>.Says t c' →
      c'.stopped = c.stopped ∧ t.refused = false ∧ t.failed = false := by
    intro c t c' hSays
    obtain ⟨rfl, rfl⟩ := says_finish.mp hSays
    split <;> simp
  cases e with
  | row row more =>
      obtain ⟨rfl, rfl, hReply⟩ | ⟨other, hSays⟩ | ⟨hNever, -⟩ := hHears
      · simpa using fun hRefused => hReply.resolve_left (by simp [hRefused])
      · obtain ⟨hStopped, hRefused, hFailed⟩ := hForward hSays
        exact ⟨hStopped, by simpa using hRefused, by simp [hFailed]⟩
      · simp at hNever
  | finish =>
      obtain hSays | ⟨row, t₁, more, c₁, t₂, hSays, hLast, rfl⟩ := hHears
      · obtain ⟨hStopped, hRefused, hFailed⟩ := hFinish hSays
        simp [hStopped, hRefused, hFailed]
      · obtain ⟨hStopped, -, hNone⟩ := hForward hSays
        obtain ⟨hStopped', hRefused, hFailed⟩ := hFinish hLast
        simp [hStopped', hStopped, hRefused, hNone, hFailed]
  | fail error =>
      obtain ⟨rfl, rfl⟩ := hHears
      simp

/-- Whatever a stream says next, this remains so. -/
theorem hear {e : Event} (h : Follows c (before ++ s :: after) said)
    (hHears : c.Hears false e t c') :
    Follows c' (before ++ (s ++ [e]) :: after) (said ++ t) := by
  obtain ⟨hStopped, hRefusal, hFailure⟩ := hears_calmly hHears
  obtain ⟨hSame, hRefused, hFailed⟩ := h
  simp only [List.forall_mem_append, List.forall_mem_cons] at hRefused
  have hSaid : said.refused = true → Trace.refused (said ++ t) = true := by
    intro hBefore
    rw [Trace.refused_append, hBefore, Bool.true_or]
  refine ⟨by rw [hStopped, hSame, Trace.refused_append], ?_, fun hFails => ?_⟩
  · simp only [List.forall_mem_append, List.forall_mem_cons]
    refine ⟨fun x hMem hX => hSaid (hRefused.1 x hMem hX), fun hNow => ?_,
      fun x hMem hX => hSaid (hRefused.2.2 x hMem hX)⟩
    rw [Trace.refused_append, Bool.or_eq_true] at hNow
    rcases hNow with hBefore | hLast
    · exact hSaid (hRefused.2.1 hBefore)
    · rw [Trace.refused_append, Bool.or_eq_true, ← hSame]
      exact hRefusal (by simpa using hLast)
  · rw [Trace.failed_append, Bool.or_eq_true] at hFails
    rcases hFails with hBefore | hNow
    · exact exists_of_replace (P := fun s : Trace => s.failed = true)
        (fun hS => by simp [hS]) (hFailed hBefore)
    · refine ⟨s ++ [e], by simp, ?_⟩
      rw [Trace.failed_append, Trace.failed_cons, hFailure hNow, Bool.true_or, Bool.or_true]

theorem hear_first {e : Event} (h : Follows c (s :: after) said)
    (hHears : c.Hears false e t c') : Follows c' ((s ++ [e]) :: after) (said ++ t) := by
  have hAll : Follows c ([] ++ s :: after) said := h
  exact hAll.hear hHears

/-- It goes on with another stream as before. -/
theorem begin (h : Follows c streams said) : Follows c.begin (streams ++ [[]]) said where
  stopped := h.stopped
  refused := by
    simp only [List.forall_mem_append, List.forall_mem_singleton]
    exact ⟨h.refused, by simp⟩
  failed hFailed := by
    obtain ⟨s, hMem, hFails⟩ := h.failed hFailed
    exact ⟨s, List.mem_append_left _ hMem, hFails⟩

theorem unfailed (h : Follows c streams said) (hStreams : ∀ s ∈ streams, s.failed = false) :
    said.failed = false := by
  rw [← Bool.not_eq_true]
  intro hFailed
  obtain ⟨s, hMem, hFails⟩ := h.failed hFailed
  rw [hStreams s hMem] at hFails
  exact Bool.false_ne_true hFails

theorem unrefused (h : Follows c streams said) (hRefused : said.refused = false) :
    ∀ s ∈ streams, s.refused = false := by
  intro s hMem
  rw [← Bool.not_eq_true]
  intro hSome
  rw [h.refused s hMem hSome] at hRefused
  exact Bool.false_ne_true hRefused.symm

end Follows

end Completion

end SolutionFlow
