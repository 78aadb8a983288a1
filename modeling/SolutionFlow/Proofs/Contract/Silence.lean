import SolutionFlow.Proofs.Contract.EndOfStream

/-! What is heard of a slice behind its end. The slice hands on no row and no second end, whatever its
argument still does. Its window is not asked about failures: those that the argument reports from then on
are told to the consumer as before, one by one. -/
namespace SolutionFlow

namespace Trace

@[simp]
theorem failures_append (t u : Trace) : failures (t ++ u) = t.failures ++ u.failures :=
  List.filterMap_append

@[simp]
theorem failures_fail (error : QueryError) (t : Trace) :
    failures (.fail error :: t) = error :: t.failures := rfl

@[simp]
theorem failures_row (row : Solution) (more : Bool) (t : Trace) :
    failures (.row row more :: t) = t.failures := rfl

@[simp]
theorem failures_finish (t : Trace) : failures (.finish :: t) = t.failures := rfl

end Trace

namespace Window

variable {w w' first : Window} {e : Event} {heard t before after : Trace}

/-- A window that is closed stays as it is, and only failures get through. -/
theorem relays_closed (hClosed : w.closed = true) (h : pipe.Relays w e t w') :
    t = (Trace.failures [e]).map .fail ∧ w' = w := by
  cases e with
  | row row more =>
      obtain ⟨-, -, rfl, rfl⟩ | ⟨hOpen, -⟩ | ⟨hOpen, -⟩ | ⟨hOpen, -⟩ | ⟨hOpen, -⟩ := says_onRow h
      · exact ⟨rfl, rfl⟩
      all_goals simp [hClosed] at hOpen
  | finish =>
      obtain ⟨rfl, ⟨-, rfl⟩ | ⟨hOpen, -⟩⟩ := says_onFinish h
      · exact ⟨rfl, by rw [← hClosed]⟩
      · simp [hClosed] at hOpen
  | fail error => exact relays_fail.mp h

/-- An end is the last thing in an answer, and closes the window. -/
theorem relays_finish (h : pipe.Relays w e (before ++ .finish :: after) w') :
    after = [] ∧ w'.closed = true := by
  cases e with
  | row row more =>
      obtain ⟨-, -, hNone, -⟩ | ⟨-, -, -, hNone, -⟩ | ⟨-, -, -, hRow, -⟩ | ⟨-, -, -, -, hLast, rfl⟩ |
        ⟨-, -, -, -, hNone, -⟩ := says_onRow h
      · simp at hNone
      · simp at hNone
      · simp [List.append_eq_cons_iff] at hRow
      · refine ⟨?_, rfl⟩
        rcases hLast with hLast | hRefused
        · obtain ⟨_, -, -, hNone⟩ : ∃ front, before = .row row true :: front ∧ front = [] ∧ after = [] := by
            simpa [List.append_eq_cons_iff, List.cons_eq_append_iff] using hLast
          exact hNone
        · simp [List.append_eq_cons_iff] at hRefused
      · simp at hNone
  | finish =>
      obtain ⟨rfl, ⟨-, hNone⟩ | ⟨-, hEnd⟩⟩ := says_onFinish h
      · simp at hNone
      · have hSplit : before = [] ∧ after = [] := by simpa [List.append_eq_cons_iff] using hEnd
        exact ⟨hSplit.2, rfl⟩
  | fail error => simp [List.append_eq_cons_iff, relays_fail] at h

/-- What a window says behind its end are the failures that it hears from then on. -/
theorem passes_finish (h : pipe.Passes first heard t w) (hEnd : t = before ++ .finish :: after) :
    ∃ early late shut, heard = early ++ late ∧ pipe.Passes first early (before ++ [.finish]) shut ∧
      after = late.failures.map .fail ∧ w.closed = true := by
  induction h generalizing after with
  | nil => simp at hEnd
  | @snoc heard said t e s s' prior last ih =>
      rcases List.append_eq_append_iff.mp hEnd with ⟨front, rfl, rfl⟩ | ⟨back, hSaid, hAfter⟩
      · obtain ⟨rfl, hClosed⟩ := relays_finish last
        refine ⟨heard ++ [e], [], s', by simp, ?_, rfl, hClosed⟩
        simpa using prior.snoc last
      · rcases List.cons_eq_append_iff.mp hAfter with ⟨rfl, hNow⟩ | ⟨before', rfl, rfl⟩
        · have hFirst : pipe.Relays s e ([] ++ .finish :: after) s' := hNow ▸ last
          obtain ⟨rfl, hClosed⟩ := relays_finish hFirst
          refine ⟨heard ++ [e], [], s', by simp, ?_, rfl, hClosed⟩
          simpa [hSaid, hNow] using prior.snoc last
        · obtain ⟨early, late, shut, rfl, hEarly, rfl, hClosed⟩ := ih hSaid
          obtain ⟨rfl, rfl⟩ := relays_closed hClosed last
          exact ⟨early, late ++ [e], shut, by simp, hEarly, by simp, hClosed⟩

end Window

namespace Plan

open Process

variable {env : Environment} {arg : Plan} {offset : Option UInt64} {limit : UInt64} {seed : Solution}
  {scope : Scope} {steps : Nat} {t before after : Trace} {p : Process}

/-- Behind the end of a slice its consumer hears no row and no second end. All that it still hears are the
failures which the argument reports after what it has said until then, each once and in their order;
and with a limit of zero, for which the argument is not started, it hears nothing. -/
theorem slice_silent_but_failures
    (run : Run env ((slice arg offset (some limit)).start env seed scope) steps t p)
    (hEnd : t = before ++ .finish :: after) :
    (∀ row more, Event.row row more ∉ after) ∧ .finish ∉ after ∧
      (limit = 0 → before = [] ∧ after = []) ∧
      (limit ≠ 0 → ∃ early late child shut,
        Run env (arg.start env seed (scope.enter (.slice offset (some limit)))) steps (early ++ late) child ∧
          Window.pipe.Passes (.ofSlice offset (some limit)) early (before ++ [.finish]) shut ∧
          after = late.failures.map .fail) := by
  rw [start] at run
  split at run
  next hZero =>
    obtain ⟨-, hSays⟩ := run.of_idle fun hSays => (says_nothing hSays).1
    obtain ⟨-, rfl⟩ := says_nothing hSays
    obtain ⟨rfl, rfl⟩ : before = [] ∧ after = [] := by
      simpa [List.append_eq_cons_iff, eq_comm] using hEnd.symm
    exact ⟨by simp, by simp, fun _ => ⟨rfl, rfl⟩, fun hSome => absurd (Option.some.inj hZero) hSome⟩
  next hSome =>
    obtain ⟨heard, child, w, hArg, hPasses, -⟩ := passes_underOne (fun _ => rfl) (fun _ _ => rfl) run
    obtain ⟨early, late, shut, rfl, hEarly, rfl, -⟩ := Window.passes_finish hPasses hEnd
    exact ⟨by simp, by simp, fun hZero => absurd (congrArg some hZero) hSome,
      fun _ => ⟨early, late, child, shut, hArg, hEarly, rfl⟩⟩

/-- A source of one row next to one that fails. -/
def oneAndLost (error : QueryError) : Plan :=
  union singleton (external ⟨[], fun _ => .immediate (.failed error)⟩)

/-- The first row is all that is wanted. The source that fails is called all the same, and fails behind the
end. -/
theorem run_oneAndLost (error : QueryError) :
    let env : Environment := .ofDataset .empty
    let start := (slice (oneAndLost error) none (some 1)).start env .empty .root
    ∃ p, Run env start 2 [.row .empty true, .finish, .fail error] p := by
  intro env start
  have first : Run env start 0 [.row .empty true, .finish] _ :=
    .start ⟨true, _, rfl, _, rfl, .starting 0, rfl, rfl⟩
  have called : Run env start 1 [.row .empty true, .finish] _ :=
    first.step (show Process.Live _ [0, 1] from ⟨_, rfl, _, rfl, rfl⟩) ⟨.starting 0, .starting 0, rfl, rfl⟩
  exact ⟨_, called.step (show Process.Live _ [0, 1] from ⟨_, rfl, _, rfl, rfl⟩) ⟨_, rfl, rfl, rfl⟩⟩

theorem slice_silent_but_failures_lost :
    let env : Environment := .ofDataset .empty
    let error : QueryError := .evaluation "lost"
    ∃ early late child shut,
      Run env ((oneAndLost error).start env .empty (Scope.root.enter (.slice none (some 1)))) 2
          (early ++ late) child ∧
        Window.pipe.Passes (.ofSlice none (some 1)) early [.row .empty true, .finish] shut ∧
        late.failures = [error] := by
  intro env error
  obtain ⟨p, run⟩ := run_oneAndLost error
  have hEnd : ([.row .empty true, .finish, .fail error] : Trace) =
      [.row .empty true] ++ .finish :: [.fail error] := rfl
  obtain ⟨-, -, -, hLate⟩ := slice_silent_but_failures run hEnd
  obtain ⟨early, late, child, shut, hArg, hEarly, hAfter⟩ := hLate (by decide)
  refine ⟨early, late, child, shut, hArg, hEarly, ?_⟩
  obtain ⟨_, hOne, hSame⟩ := List.map_eq_singleton_iff.mp hAfter.symm
  rw [hOne, Event.fail.inj hSame]

/-- A consumer that accepts all rows can hear of a failure behind the end of a slice. -/
theorem failure_behind_end_of_slice :
    ¬∀ (env : Environment) (arg : Plan) (offset : Option UInt64) (limit : UInt64) (seed : Solution)
        (scope : Scope) (steps : Nat) (t before after : Trace) (p : Process),
        Run env ((slice arg offset (some limit)).start env seed scope) steps t p → t.refused = false →
          t = before ++ .finish :: after → after = [] := by
  intro hSilent
  obtain ⟨p, run⟩ := run_oneAndLost (.evaluation "lost")
  have hNone := hSilent _ _ _ _ _ _ _ _ [.row .empty true] _ p run rfl rfl
  exact absurd hNone (List.cons_ne_nil _ _)

end Plan

end SolutionFlow
