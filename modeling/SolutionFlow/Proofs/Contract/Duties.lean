import SolutionFlow.Proofs.Contract.Abiding
import SolutionFlow.Proofs.Flow.Answers

/-! The duties of the operators of one argument. All of them keep the order of their stream, and the
end of each is honest, except that of a slice: it comes with the last row of the window, whatever
its argument may still have to say. -/
namespace SolutionFlow

namespace Event

variable (row other : Solution) (more : Bool) (error : QueryError)

/-- An answer that is in order, whatever has been said before, and honest. -/
structure Proper (e : Event) (t : Trace) : Prop where
  answered : e.Answered False t
  honest : e.Honest t

/-- A row may be handed on in any form. -/
theorem proper_forwarded : (Event.row row more).Proper [.row other more] := by
  cases more with
  | true => exact ⟨⟨Trace.orderly_singleton _, rfl, rfl⟩, rfl, fun _ => rfl⟩
  | false => exact ⟨⟨Trace.orderly_singleton _, .inl rfl⟩, rfl, fun _ => rfl⟩

theorem proper_dropped : (Event.row row true).Proper [] :=
  ⟨⟨Trace.orderly_nil, rfl, rfl⟩, rfl, fun _ => rfl⟩

/-- A failure of the operator itself comes with a refusal of the row. -/
theorem proper_failed : (Event.row row false).Proper [.fail error] :=
  ⟨⟨Trace.orderly_singleton _, .inl rfl⟩, rfl, by simp⟩

theorem proper_finish : Event.finish.Proper [.finish] :=
  ⟨⟨Trace.orderly_singleton _, .inl rfl⟩, by simp [Event.Honest, Trace.Certified]⟩

theorem proper_fail : (Event.fail error).Proper [.fail error] := ⟨rfl, rfl⟩

/-- An operator that has closed its stream may do all that it might do before. -/
theorem Answered.of_false {e : Event} {t : Trace} (h : e.Answered False t) (shut : Prop) :
    e.Answered shut t := by
  cases e with
  | row row more =>
      cases more with
      | true => exact h
      | false => exact ⟨h.1, .inl (by simpa using h.2)⟩
  | finish => exact ⟨h.1, .inl (by simpa using h.2)⟩
  | fail error => exact h

/-- A refusal needs no words once the stream has been closed. -/
theorem answered_refused {shut : Prop} (hShut : shut) : (Event.row row false).Answered shut [] :=
  ⟨Trace.orderly_nil, .inr hShut⟩

theorem honest_silent {e : Event} : e.Honest [] := by
  cases e with
  | row row more => exact ⟨rfl, fun _ => rfl⟩
  | finish => exact fun h => by simp at h
  | fail error => rfl

end Event

namespace Trace

/-- Rows that are accepted, but for the last perhaps, are in order. -/
theorem orderly_rows (rows : List Solution) {last : Trace} (hLast : last.Orderly) :
    Orderly (rows.map (.row · true) ++ last) := by
  have hOpen : ∀ e ∈ rows.map (Event.row · true), e.closes = false := by
    rw [List.forall_mem_map]
    exact fun _ _ => rfl
  rw [orderly_append, ← closes_iff]
  refine ⟨?_, hLast, fun ⟨e, hMem, hCloses⟩ => by simp [hOpen e hMem] at hCloses⟩
  rw [Orderly, List.pairwise_map]
  exact List.pairwise_iff_forall_sublist.mpr fun _ h => by simp [Event.closes] at h

theorem ended_rows (rows : List Solution) : Trace.ended (rows.map (.row · true)) = false := by
  simp [ended]

theorem refused_rows (rows : List Solution) : Trace.refused (rows.map (.row · true)) = false := by
  simp [refused]

theorem failed_rows (rows : List Solution) : Trace.failed (rows.map (.row · true)) = false := by
  simp [failed]

theorem accepted_rows (rows : List Solution) : Trace.accepted (rows.map (.row · true)) = rows := by
  simp [accepted, List.filterMap_map, Function.comp_def, Event.accepted?]

end Trace

namespace Pipe

variable {σ : Type} {p : Pipe σ}

/-- All answers of an operator are proper, in every state. -/
def Proper (p : Pipe σ) : Prop := ∀ {s e t s'}, p.Relays s e t s' → e.Proper t

theorem Proper.dutiful (h : p.Proper) : p.Dutiful (fun _ => True) (fun _ => False) where
  answered _ hRelays := (h hRelays).answered
  fit _ _ := trivial
  shut _ hShut := hShut.elim

theorem Proper.honest (h : p.Proper) : p.Honest := fun hRelays => (h hRelays).honest

/-- An operator of rows is proper if its answers to rows are. -/
theorem proper_ofRow {onRow : σ → Solution → Emission (Bool × σ)}
    (hRow : ∀ {s row t more s'}, (onRow s row).Says t (more, s') → (Event.row row more).Proper t) :
    (Pipe.ofRow onRow).Proper := by
  intro s e t s' hRelays
  rw [relays_ofRow] at hRelays
  cases e with
  | row row more => exact hRow hRelays
  | finish =>
      obtain ⟨rfl, -⟩ := hRelays
      exact Event.proper_finish
  | fail error =>
      obtain ⟨rfl, -⟩ := hRelays
      exact Event.proper_fail error

end Pipe

theorem Projecting.proper : Projecting.pipe.Proper := by
  refine Pipe.proper_ofRow fun {s row t more s'} h => ?_
  obtain ⟨rfl, -⟩ := Projecting.says_onRow h
  exact Event.proper_forwarded ..

theorem MultiProjecting.proper : MultiProjecting.pipe.Proper := by
  refine Pipe.proper_ofRow fun {s row t more s'} h => ?_
  simp only [bind_pure_comp, Emission.says_map, Prod.mk.injEq] at h
  obtain ⟨⟨_, lists⟩, hPush, rfl, -⟩ := h
  obtain ⟨last, hTrace, ⟨rfl, rfl⟩ | ⟨rfl, refused, rfl⟩⟩ := MultiProjecting.says_pushEach hPush
  · rw [hTrace, List.append_nil]
    have hOrderly := Trace.orderly_rows t.accepted Trace.orderly_nil
    rw [List.append_nil] at hOrderly
    exact ⟨⟨hOrderly, Trace.ended_rows _, Trace.refused_rows _⟩, Trace.ended_rows _,
      fun _ => Trace.failed_rows _⟩
  · rw [hTrace]
    exact ⟨⟨Trace.orderly_rows _ (Trace.orderly_singleton _), .inl (by simp [Trace.isOver])⟩,
      by simp [Trace.ended_rows], by simp⟩

theorem Filtering.proper (env : Environment) : (Filtering.pipe env).Proper := by
  refine Pipe.proper_ofRow fun {s row t more s'} h => ?_
  obtain rfl | ⟨rfl, rfl⟩ | ⟨rfl, error, rfl⟩ := Filtering.says_onRow h
  · exact Event.proper_forwarded ..
  · exact Event.proper_dropped row
  · exact Event.proper_failed row error

theorem Extending.proper (env : Environment) : (Extending.pipe env).Proper := by
  refine Pipe.proper_ofRow fun {s row t more s'} h => ?_
  obtain ⟨extended, rfl⟩ | ⟨rfl, error, rfl⟩ := Extending.says_onRow h
  · exact Event.proper_forwarded ..
  · exact Event.proper_failed row error

theorem Correcting.proper : Correcting.pipe.Proper := by
  refine Pipe.proper_ofRow fun {s row t more s'} h => ?_
  obtain ⟨-, ⟨corrected, -, rfl⟩ | ⟨-, rfl, rfl⟩⟩ := Correcting.says_onRow h
  · exact Event.proper_forwarded ..
  · exact Event.proper_dropped row

theorem Reducing.proper : Reducing.pipe.Proper := by
  refine Pipe.proper_ofRow fun {s row t more s'} h => ?_
  obtain ⟨-, rfl, rfl, -⟩ | ⟨-, rfl, -⟩ := Reducing.says_onRow h
  · exact Event.proper_dropped row
  · exact Event.proper_forwarded ..

namespace Deduplicating

theorem relays_finish {s s' : Deduplicating} {t : Trace} :
    pipe.Relays s .finish t s' ↔ t = [.finish] ∧ s' = ⟨s.seen.close⟩ := by
  simp [Pipe.Relays, pipe]

theorem relays_fail {s s' : Deduplicating} {error : QueryError} {t : Trace} :
    pipe.Relays s (.fail error) t s' ↔ t = [.fail error] ∧ s' = ⟨s.seen.close⟩ := by
  simp [Pipe.Relays, pipe]

/-- Once its set of rows is closed, the operator has told so. -/
theorem dutiful : pipe.Dutiful (fun _ => True) (fun s => s.seen.closed = true) where
  answered {s e t s'} _ h := by
    cases e with
    | row row more =>
        obtain ⟨hClosed, rfl, rfl, -⟩ | ⟨-, -, rfl | ⟨rfl, rfl⟩⟩ | ⟨-, rfl, ⟨error, rfl⟩, -⟩ :=
          says_onRow h
        · exact Event.answered_refused row hClosed
        · exact (Event.proper_forwarded ..).answered.of_false _
        · exact (Event.proper_dropped row).answered.of_false _
        · exact (Event.proper_failed row error).answered.of_false _
    | finish =>
        obtain ⟨rfl, -⟩ := relays_finish.mp h
        exact Event.proper_finish.answered.of_false _
    | fail error => exact (relays_fail.mp h).1
  fit _ _ := trivial
  shut {s e t s'} h hShut := by
    cases e with
    | row row more =>
        obtain ⟨hClosed, -⟩ | ⟨-, hOpen, -⟩ | ⟨-, -, ⟨error, rfl⟩, -⟩ := says_onRow h
        · exact .inl hClosed
        · exact .inl (by simp [hOpen] at hShut)
        · exact .inr rfl
    | finish =>
        obtain ⟨rfl, -⟩ := relays_finish.mp h
        exact .inr rfl
    | fail error =>
        obtain ⟨rfl, -⟩ := relays_fail.mp h
        exact .inr rfl

theorem honest : pipe.Honest := by
  intro s e t s' h
  cases e with
  | row row more =>
      obtain ⟨-, rfl, rfl, -⟩ | ⟨-, -, rfl | ⟨rfl, rfl⟩⟩ | ⟨-, rfl, ⟨error, rfl⟩, -⟩ := says_onRow h
      · exact Event.honest_silent
      · exact (Event.proper_forwarded ..).honest
      · exact Event.honest_silent
      · exact (Event.proper_failed row error).honest
  | finish =>
      obtain ⟨rfl, -⟩ := relays_finish.mp h
      exact Event.proper_finish.honest
  | fail error =>
      obtain ⟨rfl, -⟩ := relays_fail.mp h
      exact rfl

end Deduplicating

namespace Sorting

theorem relays_fail {env : Environment} {s s' : Sorting} {error : QueryError} {t : Trace} :
    (pipe env).Relays s (.fail error) t s' ↔ t = [.fail error] ∧ s' = s.close := says_failWith

/-- The rows of an open sort, with the end behind them, keep the order and tell of the end. -/
theorem orderly_release {sorted : List Solution} {u : Trace} {more : Bool}
    (h : (Emission.pushAll sorted).Says u more) :
    Trace.Orderly (u ++ if more then [.finish] else []) ∧
      Trace.isOver (u ++ if more then [.finish] else []) = true ∧
      Trace.failed (u ++ if more then [.finish] else []) = false := by
  obtain ⟨rfl, rfl⟩ | ⟨rfl, given, row, rest, -, rfl⟩ := Emission.says_pushAll h
  · exact ⟨Trace.orderly_rows _ (Trace.orderly_singleton _), by simp [Trace.isOver],
      by simp [Trace.failed_rows]⟩
  · simp only [Bool.false_eq_true, ↓reduceIte, List.append_nil]
    exact ⟨Trace.orderly_rows _ (Trace.orderly_singleton _), by simp [Trace.isOver],
      by simp [Trace.failed_rows]⟩

/-- Once the sort is closed, the operator has told so. -/
theorem dutiful (env : Environment) : (pipe env).Dutiful (fun _ => True) Shut where
  answered {s e t s'} _ h := by
    cases e with
    | row row more =>
        obtain ⟨rfl, rfl, -⟩ | ⟨rfl, rfl, hShut⟩ | ⟨rfl, error, rfl⟩ := says_onRow h
        · exact (Event.proper_dropped row).answered.of_false _
        · exact Event.answered_refused row hShut
        · exact (Event.proper_failed row error).answered.of_false _
    | finish =>
        obtain ⟨hClosed, rfl⟩ | ⟨-, u, more, hPush, rfl⟩ := says_onFinish h
        · exact ⟨Trace.orderly_nil, .inr (.inl hClosed)⟩
        · obtain ⟨hOrderly, hOver, -⟩ := orderly_release hPush
          exact ⟨hOrderly, .inl hOver⟩
    | fail error => exact (relays_fail.mp h).1
  fit _ _ := trivial
  shut {s e t s'} h hShut := by
    cases e with
    | row row more =>
        obtain ⟨-, -, hSame⟩ | ⟨-, -, hShut⟩ | ⟨-, error, rfl⟩ := says_onRow h
        · exact .inl (hSame hShut)
        · exact .inl hShut
        · exact .inr rfl
    | finish =>
        obtain ⟨hClosed, rfl⟩ | ⟨-, u, more, hPush, rfl⟩ := says_onFinish h
        · exact .inl (.inl hClosed)
        · exact .inr (orderly_release hPush).2.1
    | fail error =>
        obtain ⟨rfl, -⟩ := relays_fail.mp h
        exact .inr rfl

theorem honest (env : Environment) : (pipe env).Honest := by
  intro s e t s' h
  cases e with
  | row row more =>
      obtain ⟨-, rfl, -⟩ | ⟨-, rfl, -⟩ | ⟨rfl, error, rfl⟩ := says_onRow h
      · exact Event.honest_silent
      · exact Event.honest_silent
      · exact (Event.proper_failed row error).honest
  | finish =>
      obtain ⟨-, rfl⟩ | ⟨-, u, more, hPush, rfl⟩ := says_onFinish h
      · exact Event.honest_silent
      · rintro ⟨-, hFailed⟩
        rw [(orderly_release hPush).2.2] at hFailed
        simp at hFailed
  | fail error =>
      obtain ⟨rfl, -⟩ := relays_fail.mp h
      exact rfl

end Sorting

namespace Window

/-- The window has been passed once its last row has, unless the last row can never come. -/
def Fit (w : Window) : Prop :=
  maxCount ≤ w.offset ∨ (w.offset < w.last ∧ (w.closed = false → w.count < w.last))

theorem nextNumber_le (w : Window) : w.nextNumber ≤ w.count + 1 ∧ w.nextNumber ≤ maxCount := by
  have hPositive : 0 < UInt64.size := by decide
  have hLt := Nat.mod_lt (w.count + 1) hPositive
  have hSize : UInt64.size = maxCount + 1 := rfl
  exact ⟨Nat.mod_le _ _, by unfold nextNumber; omega⟩

/-- Only an empty window would have no row to end with, and none is made of a slice that is run. -/
theorem fit_ofSlice {offset limit : Option UInt64} (hLimit : limit ≠ some 0) :
    (ofSlice offset limit).Fit := by
  by_cases hFar : maxCount ≤ (offset.getD 0).toNat
  · exact .inl hFar
  · rw [Nat.not_le] at hFar
    have hLast : (ofSlice offset limit).offset < (ofSlice offset limit).last := by
      cases limit with
      | none => exact hFar
      | some n =>
          have hPositive : 0 < n.toNat := by
            rw [Nat.pos_iff_ne_zero]
            intro hZero
            exact hLimit (congrArg some (UInt64.toNat.inj hZero))
          simp only [ofSlice, addCapped]
          omega
    exact .inr ⟨hLast, fun _ => by have : (ofSlice offset limit).count = 0 := rfl; omega⟩

theorem relays_fail {w w' : Window} {error : QueryError} {t : Trace} :
    pipe.Relays w (.fail error) t w' ↔ t = [.fail error] ∧ w' = w := by
  simp [Pipe.Relays, pipe, and_comm]

/-- Once the window is closed, the operator has told so. -/
theorem dutiful : pipe.Dutiful Fit (fun w => w.closed = true) where
  answered {w e t w'} hFit h := by
    cases e with
    | row row more =>
        obtain ⟨hClosed, rfl, rfl, -⟩ | ⟨-, -, rfl, rfl, -⟩ | ⟨-, -, -, rfl, -⟩ |
          ⟨-, -, -, rfl, rfl | rfl, -⟩ | ⟨hOpen, hPast, hBeyond, -⟩ := says_onRow h
        · exact Event.answered_refused row hClosed
        · exact (Event.proper_dropped row).answered.of_false _
        · exact (Event.proper_forwarded ..).answered.of_false _
        · exact ⟨Trace.orderly_rows [row] (Trace.orderly_singleton _), .inl rfl⟩
        · exact (Event.proper_forwarded ..).answered.of_false _
        · have hNext := w.nextNumber_le
          obtain hFar | ⟨-, hCount⟩ := hFit
          · omega
          · have hBefore := hCount hOpen
            omega
    | finish =>
        obtain ⟨-, ⟨hClosed, rfl⟩ | ⟨-, rfl⟩⟩ := says_onFinish h
        · exact ⟨Trace.orderly_nil, .inr hClosed⟩
        · exact Event.proper_finish.answered.of_false _
    | fail error => exact (relays_fail.mp h).1
  fit {w e t w'} hFit h := by
    cases e with
    | row row more =>
        have hNext := w.nextNumber_le
        obtain hFar | ⟨hWindow, hCount⟩ := hFit
        · obtain ⟨-, -, -, rfl⟩ | ⟨-, -, -, -, rfl⟩ | ⟨-, -, -, -, rfl⟩ | ⟨-, -, -, -, -, rfl⟩ |
            ⟨-, -, -, -, -, rfl⟩ := says_onRow h
          all_goals exact .inl hFar
        · obtain ⟨-, -, -, rfl⟩ | ⟨-, hSkip, -, -, rfl⟩ | ⟨-, -, hInside, -, rfl⟩ |
            ⟨-, -, -, -, -, rfl⟩ | ⟨hOpen, -, hBeyond, -, -, -⟩ := says_onRow h
          · exact .inr ⟨hWindow, hCount⟩
          · exact .inr ⟨hWindow, fun _ => Nat.lt_of_le_of_lt hSkip hWindow⟩
          · exact .inr ⟨hWindow, fun _ => hInside⟩
          · exact .inr ⟨hWindow, by simp⟩
          · have hBefore := hCount hOpen
            omega
    | finish =>
        obtain ⟨rfl, -⟩ := says_onFinish h
        exact hFit.imp_right fun hInside => ⟨hInside.1, by simp⟩
    | fail error =>
        obtain ⟨-, rfl⟩ := relays_fail.mp h
        exact hFit
  shut {w e t w'} h hShut := by
    cases e with
    | row row more =>
        obtain ⟨hClosed, -⟩ | ⟨hOpen, -, -, -, rfl⟩ | ⟨-, -, -, rfl, rfl⟩ |
          ⟨-, -, -, -, rfl | rfl, -⟩ | ⟨hOpen, -, -, -, -, rfl⟩ := says_onRow h
        · exact .inl hClosed
        · exact .inl hShut
        · exact .inr (by simpa [Trace.isOver] using hShut)
        · exact .inr rfl
        · exact .inr rfl
        · exact .inl hShut
    | finish =>
        obtain ⟨-, ⟨hClosed, rfl⟩ | ⟨-, rfl⟩⟩ := says_onFinish h
        · exact .inl hClosed
        · exact .inr rfl
    | fail error =>
        obtain ⟨rfl, -⟩ := relays_fail.mp h
        exact .inr rfl

end Window

end SolutionFlow
