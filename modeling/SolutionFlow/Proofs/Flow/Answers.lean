import SolutionFlow.Flow.Process
import SolutionFlow.Proofs.Flow.Trace
import SolutionFlow.Proofs.Spill.Members

/-! What operators can answer. Each lemma lists all that one operator can say to one event of its
arguments and the state that it is in afterwards, so that later proofs need not open it. -/
namespace SolutionFlow

namespace Pipe

variable {σ τ : Type}

/-- An operator whose state is kept in another form answers as before. -/
theorem relays_react {p : Pipe σ} {react : τ → Reaction τ} {wrap : σ → τ} {s : σ} {e : Event}
    {t : Trace} {s' : τ} (hReact : react (wrap s) = p.react s wrap) :
    (Pipe.ofReaction react).Relays (wrap s) e t s' ↔ ∃ s₁, s' = wrap s₁ ∧ p.Relays s e t s₁ := by
  cases e with
  | row row more =>
      simp only [Relays, ofReaction, hReact, Pipe.react, Emission.says_bind, Emission.says_pure]
      constructor
      · rintro ⟨t₁, ⟨reply, s₁⟩, t₂, hRow, ⟨rfl, hEq⟩, rfl⟩
        obtain ⟨rfl, rfl⟩ := Prod.mk.inj hEq
        exact ⟨s₁, rfl, by simpa using hRow⟩
      · rintro ⟨s₁, rfl, hRow⟩
        exact ⟨t, (more, s₁), [], hRow, ⟨rfl, rfl⟩, by simp⟩
  | finish =>
      simp only [Relays, ofReaction, hReact, Pipe.react, bind_pure_comp, Emission.says_map]
      exact exists_congr fun _ => and_comm
  | fail error =>
      simp only [Relays, ofReaction, hReact, Pipe.react, bind_pure_comp, Emission.says_map]
      exact exists_congr fun _ => and_comm

/-- An operator of rows hands on ends and failures as they come. -/
theorem relays_ofRow {onRow : σ → Solution → Emission (Bool × σ)} {s s' : σ} {e : Event}
    {t : Trace} :
    (Pipe.ofRow onRow).Relays s e t s' ↔
      match e with
      | .row row more => (onRow s row).Says t (more, s')
      | .finish => t = [.finish] ∧ s' = s
      | .fail error => t = [.fail error] ∧ s' = s := by
  cases e with
  | row row more => rfl
  | finish =>
      simp [Relays, ofRow, and_comm]
  | fail error =>
      simp [Relays, ofRow, and_comm]

end Pipe

namespace Completion

theorem says_forward {c c' : Completion} {row : Solution} {t : Trace} {more : Bool} :
    (c.forward row).Says t (more, c') ↔
      c.stopped = true ∧ more = false ∧ t = [] ∧ c' = c ∨
      c.stopped = false ∧ t = [.row row more] ∧ c' = { c with stopped := !more } := by
  cases hStopped : c.stopped with
  | true => simp [forward, hStopped, and_left_comm]
  | false =>
      simp only [forward, hStopped, Bool.false_eq_true, ↓reduceIte, bind_pure_comp,
        Emission.says_map, Emission.says_push, Prod.mk.injEq]
      cases more <;> simp

theorem says_finish {c c' : Completion} {t : Trace} :
    c.finish.Says t c' ↔
      c' = { c with openStreams := c.openStreams - 1 } ∧
        t = if c.openStreams = 1 ∧ c.stopped = false then [.finish] else [] := by
  cases hLast : c.openStreams == 1 && !c.stopped with
  | true =>
      have hBoth : c.openStreams = 1 ∧ c.stopped = false := by simpa using hLast
      simp [finish, close, hBoth, and_comm]
  | false =>
      have hNot : ¬(c.openStreams = 1 ∧ c.stopped = false) := by
        simpa [Bool.and_eq_false_iff] using hLast
      simp [finish, close, hLast, hNot, and_comm]

theorem relays_pipe {c c' : Completion} {e : Event} {t : Trace} :
    pipe.Relays c e t c' ↔
      match e with
      | .row row more => (c.forward row).Says t (more, c')
      | .finish => c.finish.Says t c'
      | .fail error => t = [.fail error] ∧ c' = c := by
  cases e with
  | row row more => rfl
  | finish => rfl
  | fail error => simp [Pipe.Relays, pipe, and_comm]

end Completion

namespace Joining

theorem says_isWanted {c : Completion} {wanted : Bool} {t : Trace} :
    (isWanted c).Says t wanted ↔ t = [] ∧ wanted = !c.stopped := by
  cases hStopped : c.stopped <;> simp [isWanted, hStopped]

theorem says_openBranch {s : Joining} {o : Option Joining} {t : Trace} :
    s.openBranch.Says t o ↔ t = [] ∧
      o = if s.completion.stopped then none else some { s with completion := s.completion.begin } := by
  simp only [openBranch, Emission.says_bind, says_isWanted]
  cases s.completion.stopped <;> simp

/-- The branches of a join are answered by its completion alone. -/
theorem relays_branchPipe {s s' : Joining} {e : Event} {t : Trace} :
    branchPipe.Relays s e t s' ↔
      ∃ c, s' = { s with completion := c } ∧ Completion.pipe.Relays s.completion e t c := by
  rw [exists_congr fun c => and_congr_right fun _ => Completion.relays_pipe]
  cases e with
  | row row more =>
      simp only [Pipe.Relays, branchPipe, Emission.says_bind, Emission.says_pure]
      constructor
      · rintro ⟨t₁, ⟨reply, c⟩, t₂, hRow, ⟨rfl, hEq⟩, rfl⟩
        obtain ⟨rfl, rfl⟩ := Prod.mk.inj hEq
        exact ⟨c, rfl, by simpa using hRow⟩
      · rintro ⟨c, rfl, hRow⟩
        exact ⟨t, (more, c), [], hRow, ⟨rfl, rfl⟩, by simp⟩
  | finish => simp [Pipe.Relays, branchPipe, and_comm]
  | fail error =>
      simp only [Pipe.Relays, branchPipe, bind_pure_comp, Emission.says_map, Emission.says_report]
      constructor
      · rintro ⟨-, rfl, rfl⟩
        exact ⟨s'.completion, rfl, rfl, rfl⟩
      · rintro ⟨_, rfl, rfl, rfl⟩
        exact ⟨(), rfl, rfl⟩

end Joining

namespace LeftJoining

theorem says_openBranch {s : LeftJoining} {left : Solution} {o : Option LeftJoining} {t : Trace} :
    (s.openBranch left).Says t o ↔ t = [] ∧
      o = if s.completion.stopped then none else some { s with
        completion := s.completion.begin, branches := s.branches ++ [⟨left, true⟩] } := by
  simp only [openBranch, Emission.says_bind, Joining.says_isWanted]
  cases s.completion.stopped <;> simp

/-- At some time the condition can be found to have this outcome on a right row. -/
def Judges (env : Environment) (s : LeftJoining) (row : Solution)
    (outcome : Except QueryError Bool) : Prop :=
  ∃ clock, ((s.admits env.surroundings row).run clock).1 = outcome

/-- Without a condition, a left join has nothing against a row. -/
theorem eq_true_of_judges {env : Environment} {s : LeftJoining} {row : Solution}
    {outcome : Except QueryError Bool} (hCondition : s.condition = none)
    (h : s.Judges env row outcome) : outcome = .ok true := by
  obtain ⟨clock, rfl⟩ := h
  rw [admits, hCondition]
  rfl

theorem isSome_of_error {env : Environment} {s : LeftJoining} {row : Solution} {error : QueryError}
    (h : s.Judges env row (.error error)) : s.condition.isSome = true := by
  rw [Option.isSome_iff_ne_none]
  intro hCondition
  simpa using eq_true_of_judges hCondition h

/-- A right row is refused by a stopped join, handed on, dropped, or fails the join. -/
theorem says_onBranchRow {env : Environment} {k : Nat} {s s' : LeftJoining} {row : Solution}
    {t : Trace} {more : Bool} (h : (onBranchRow env k s row).Says t (more, s')) :
    (s.completion.stopped = true ∧ more = false ∧ t = [] ∧ s' = s) ∨
    (s.completion.stopped = false ∧ s.Judges env row (.ok true) ∧ t = [.row row more] ∧
      s' = { s.markMatched k with completion := { s.completion with stopped := !more } }) ∨
    (s.completion.stopped = false ∧ s.Judges env row (.ok false) ∧ more = true ∧ t = [] ∧ s' = s) ∨
    (s.completion.stopped = false ∧ ∃ error, s.Judges env row (.error error) ∧ more = false ∧
      t = [.fail error] ∧ s' = s) := by
  cases hStopped : s.completion.stopped with
  | true => simpa [onBranchRow, hStopped, and_left_comm] using h
  | false =>
      simp only [onBranchRow, hStopped, Bool.false_eq_true, ↓reduceIte, Emission.says_bind,
        Emission.says_asking] at h
      obtain ⟨t₁, outcome, t₂, ⟨rfl, clock, hJudged⟩, hRest, rfl⟩ := h
      have hJudges : s.Judges env row outcome := ⟨clock, hJudged.symm⟩
      cases outcome with
      | error error =>
          simp only [bind_pure_comp, Emission.says_map, Emission.says_report, Prod.mk.injEq] at hRest
          obtain ⟨-, rfl, rfl, rfl⟩ := hRest
          exact .inr (.inr (.inr ⟨rfl, error, hJudges, rfl, rfl, rfl⟩))
      | ok holds =>
          cases holds with
          | true =>
              simp only [accept, Emission.says_bind, Emission.says_pure] at hRest
              obtain ⟨u, ⟨reply, c⟩, _, hForward, ⟨rfl, hEq⟩, rfl⟩ := hRest
              obtain ⟨rfl, rfl⟩ := Prod.mk.inj hEq
              obtain ⟨hTrue, -⟩ | ⟨-, rfl, rfl⟩ := Completion.says_forward.mp hForward
              · simp [hStopped] at hTrue
              · exact .inr (.inl ⟨rfl, hJudges, by simp, rfl⟩)
          | false =>
              obtain ⟨rfl, hEq⟩ := hRest
              obtain ⟨rfl, rfl⟩ := Prod.mk.inj hEq
              exact .inr (.inr (.inl ⟨rfl, hJudges, rfl, rfl, rfl⟩))

/-- The end of a branch hands on the left row first, if it is unmatched. -/
theorem says_onBranchFinish {k : Nat} {s s' : LeftJoining} {t : Trace}
    (h : (onBranchFinish k s).Says t s') :
    (∃ left t₁ more c₁ t₂ c₂, s.branches[k]? = some ⟨left, true⟩ ∧
      (s.completion.forward left).Says t₁ (more, c₁) ∧ c₁.finish.Says t₂ c₂ ∧ t = t₁ ++ t₂ ∧
      s' = { s with completion := c₂ }) ∨
    ((∀ left, s.branches[k]? ≠ some ⟨left, true⟩) ∧ ∃ c, s.completion.finish.Says t c ∧
      s' = { s with completion := c }) := by
  unfold onBranchFinish at h
  split at h
  next left hGet =>
    simp only [Emission.says_bind, bind_pure_comp, Emission.says_map] at h
    obtain ⟨t₁, ⟨more, c₁⟩, t₂, hForward, ⟨c₂, hFinish, rfl⟩, rfl⟩ := h
    exact .inl ⟨left, t₁, more, c₁, t₂, c₂, hGet, hForward, hFinish, rfl, rfl⟩
  next hOther =>
    simp only [bind_pure_comp, Emission.says_map] at h
    exact .inr ⟨hOther, h⟩

theorem relays_fail {env : Environment} {k : Nat} {s s' : LeftJoining} {error : QueryError}
    {t : Trace} :
    (branchPipe env k).Relays s (.fail error) t s' ↔ t = [.fail error] ∧ s' = s := by
  simp [Pipe.Relays, branchPipe, and_comm]

end LeftJoining

namespace SetFilter

/-- Nothing but a closed set of right rows keeps a left row from being judged. -/
theorem closed_of_keeps_error {op : SetOperator} {right : MemberSet Solution} {row : Solution}
    {error : SpillError} (h : op.keeps right row = .error error) :
    error = .closed ∧ right.closed = true := by
  cases hClosed : right.closed with
  | true =>
      cases op <;> simp only [SetOperator.keeps, MemberSet.contains, MemberSet.any, hClosed, ↓reduceIte,
        Except.map, Except.error.injEq] at h
      all_goals exact ⟨h.symm, rfl⟩
  | false =>
      cases op <;> simp [SetOperator.keeps, MemberSet.contains_eq hClosed, MemberSet.any_eq hClosed,
        Except.map] at h

theorem says_failWith {s s' : SetFilter} {error : QueryError} {t : Trace} :
    (s.failWith error).Says t s' ↔ t = [.fail error] ∧ s' = s.close := by
  simp [failWith]

/-- A left row is refused without the right rows, handed on, or dropped. -/
theorem says_onLeftRow {s s' : SetFilter} {row : Solution} {t : Trace} {more : Bool}
    (h : (s.onLeftRow row).Says t (more, s')) :
    s' = s ∧ ((s.right.closed = true ∧ more = false ∧ t = []) ∨
      (s.op.keeps s.right row = .ok true ∧ t = [.row row more]) ∨
      (s.op.keeps s.right row = .ok false ∧ more = true ∧ t = [])) := by
  unfold onLeftRow at h
  split at h
  next hKeeps =>
    simp only [bind_pure_comp, Emission.says_map, Emission.says_push, Prod.mk.injEq] at h
    obtain ⟨_, rfl, rfl, rfl⟩ := h
    exact ⟨rfl, .inr (.inl ⟨hKeeps, rfl⟩)⟩
  next hKeeps =>
    obtain ⟨rfl, hEq⟩ := h
    obtain ⟨rfl, rfl⟩ := Prod.mk.inj hEq
    exact ⟨rfl, .inr (.inr ⟨hKeeps, rfl, rfl⟩)⟩
  next error hKeeps =>
    obtain ⟨rfl, hClosed⟩ := closed_of_keeps_error hKeeps
    obtain ⟨rfl, hEq⟩ := h
    obtain ⟨rfl, rfl⟩ := Prod.mk.inj hEq
    exact ⟨rfl, .inl ⟨hClosed, rfl, rfl⟩⟩

/-- A right row is refused by a closed set, taken, or fails the operator. -/
theorem says_onRightRow {s s' : SetFilter} {row : Solution} {t : Trace} {more : Bool}
    (h : (s.onRightRow row).Says t (more, s')) :
    ∃ right, s' = { s with right := right } ∧
      ((s.right.closed = true ∧ more = false ∧ t = [] ∧ right = s.right) ∨
        (s.right.closed = false ∧ more = true ∧ t = [] ∧ right.closed = false ∧
          ∃ isNew, s.right.add row = (.ok isNew, right)) ∨
        (s.right.closed = false ∧ more = false ∧
          t = [.fail (.spill SpillOptions.unwritable)] ∧ right = s.right.close)) := by
  unfold onRightRow at h
  obtain ⟨hClosed, hAdd⟩ | ⟨hOpen, isNew, right, hAdd, hRight, -⟩ | ⟨hOpen, hAdd, -⟩ :=
    s.right.add_cases row
  · simp only [hAdd, refuse, Emission.says_pure, Prod.mk.injEq] at h
    obtain ⟨rfl, rfl, rfl⟩ := h
    exact ⟨s.right, rfl, .inl ⟨hClosed, rfl, rfl, rfl⟩⟩
  · simp only [hAdd, Emission.says_pure, Prod.mk.injEq] at h
    obtain ⟨rfl, rfl, rfl⟩ := h
    exact ⟨right, rfl, .inr (.inl ⟨hOpen, rfl, rfl, hRight, isNew, hAdd⟩)⟩
  · simp only [hAdd, SpillOptions.unwritable, refuse, bind_pure_comp, Emission.says_map,
      says_failWith, Prod.mk.injEq] at h
    obtain ⟨_, ⟨rfl, rfl⟩, rfl, rfl⟩ := h
    exact ⟨s.right.close, rfl, .inr (.inr ⟨hOpen, rfl, rfl, rfl⟩)⟩

theorem relays_leftPipe {s s' : SetFilter} {e : Event} {t : Trace} :
    leftPipe.Relays s e t s' ↔
      match e with
      | .row row more => (s.onLeftRow row).Says t (more, s')
      | .finish => t = [.finish] ∧ s' = s.close
      | .fail error => t = [.fail error] ∧ s' = s.close := by
  cases e with
  | row row more => rfl
  | finish => simp [Pipe.Relays, leftPipe]
  | fail error => exact says_failWith

end SetFilter

namespace Projecting

theorem says_onRow {s s' : Projecting} {row : Solution} {t : Trace} {more : Bool}
    (h : (pipe.onRow s row).Says t (more, s')) :
    t = [.row (Projection.onto s.list row s.seed) more] ∧ s' = s := by
  simp only [pipe, Pipe.ofRow, bind_pure_comp, Emission.says_map, Emission.says_push,
    Prod.mk.injEq] at h
  obtain ⟨_, rfl, rfl, rfl⟩ := h
  exact ⟨rfl, rfl⟩

end Projecting

namespace MultiProjecting

/-- Some projections of a row are handed on, and the last of them may be refused. -/
theorem says_pushEach {seed row : Solution} {lists lists' : List (List Rename × Option Solution)}
    {t : Trace} {more : Bool} (h : (pushEach seed row lists).Says t (more, lists')) :
    ∃ last, t = t.accepted.map (.row · true) ++ last ∧
      (more = true ∧ last = [] ∨ more = false ∧ ∃ row, last = [.row row false]) := by
  induction lists generalizing t more lists' with
  | nil =>
      obtain ⟨rfl, hEq⟩ := h
      obtain ⟨rfl, -⟩ := Prod.mk.inj hEq
      exact ⟨[], rfl, .inl ⟨rfl, rfl⟩⟩
  | cons list rest ih =>
      obtain ⟨list, previous⟩ := list
      simp only [pushEach] at h
      split at h
      · simp only [bind_pure_comp, Emission.says_map, Prod.mk.injEq] at h
        obtain ⟨⟨_, _⟩, hRest, rfl, -⟩ := h
        exact ih hRest
      · obtain ⟨t₁, reply, t₂, hPush, hRest, rfl⟩ := Emission.says_bind.mp h
        obtain rfl := Emission.says_push.mp hPush
        cases reply with
        | true =>
            simp only [↓reduceIte, bind_pure_comp, Emission.says_map, Prod.mk.injEq] at hRest
            obtain ⟨⟨_, _⟩, hRest, rfl, -⟩ := hRest
            obtain ⟨last, hTrace, hLast⟩ := ih hRest
            exact ⟨last, congrArg (Event.row _ true :: ·) hTrace, hLast⟩
        | false =>
            simp only [Bool.false_eq_true, ↓reduceIte, Emission.says_pure, Prod.mk.injEq] at hRest
            obtain ⟨rfl, rfl, -⟩ := hRest
            exact ⟨[.row _ false], rfl, .inr ⟨rfl, _, rfl⟩⟩

end MultiProjecting

namespace Filtering

/-- A row is handed on, dropped, or fails the filter. -/
theorem says_onRow {env : Environment} {s s' : Filtering} {row : Solution} {t : Trace} {more : Bool}
    (h : ((pipe env).onRow s row).Says t (more, s')) :
    t = [.row row more] ∨ (more = true ∧ t = []) ∨ (more = false ∧ ∃ error, t = [.fail error]) := by
  simp only [pipe, Pipe.ofRow, Emission.says_bind, Emission.says_asking] at h
  obtain ⟨t₁, outcome, t₂, ⟨rfl, -⟩, hRest, rfl⟩ := h
  cases outcome with
  | error error =>
      simp only [bind_pure_comp, Emission.says_map, Emission.says_report, Prod.mk.injEq] at hRest
      obtain ⟨_, rfl, rfl, -⟩ := hRest
      exact .inr (.inr ⟨rfl, error, rfl⟩)
  | ok holds =>
      cases holds with
      | true =>
          simp only [bind_pure_comp, Emission.says_map, Emission.says_push, Prod.mk.injEq] at hRest
          obtain ⟨_, rfl, rfl, -⟩ := hRest
          exact .inl rfl
      | false =>
          obtain ⟨rfl, hEq⟩ := hRest
          exact .inr (.inl ⟨(Prod.mk.inj hEq).1, rfl⟩)

end Filtering

namespace Extending

/-- A row is handed on with its computed bindings, or fails the operator. -/
theorem says_onRow {env : Environment} {s s' : Extending} {row : Solution} {t : Trace} {more : Bool}
    (h : ((pipe env).onRow s row).Says t (more, s')) :
    (∃ extended, t = [.row extended more]) ∨ (more = false ∧ ∃ error, t = [.fail error]) := by
  simp only [pipe, Pipe.ofRow, Emission.says_bind, Emission.says_asking] at h
  obtain ⟨t₁, outcome, t₂, ⟨rfl, -⟩, hRest, rfl⟩ := h
  cases outcome with
  | ok extended =>
      simp only [bind_pure_comp, Emission.says_map, Emission.says_push, Prod.mk.injEq] at hRest
      obtain ⟨_, rfl, rfl, -⟩ := hRest
      exact .inl ⟨extended, rfl⟩
  | error error =>
      simp only [bind_pure_comp, Emission.says_map, Emission.says_report, Prod.mk.injEq] at hRest
      obtain ⟨_, rfl, rfl, -⟩ := hRest
      exact .inr ⟨rfl, error, rfl⟩

end Extending

namespace Correcting

/-- A row is handed on with the bindings that were held back, or dropped. -/
theorem says_onRow {s s' : Correcting} {row : Solution} {t : Trace} {more : Bool}
    (h : (pipe.onRow s row).Says t (more, s')) :
    s' = s ∧ ((∃ corrected, s.correct? row = some corrected ∧ t = [.row corrected more]) ∨
      (s.correct? row = none ∧ more = true ∧ t = [])) := by
  cases hCorrect : s.correct? row with
  | some corrected =>
      simp only [pipe, Pipe.ofRow, hCorrect, bind_pure_comp, Emission.says_map, Emission.says_push,
        Prod.mk.injEq] at h
      obtain ⟨_, rfl, rfl, rfl⟩ := h
      exact ⟨rfl, .inl ⟨corrected, rfl, rfl⟩⟩
  | none =>
      simp only [pipe, Pipe.ofRow, hCorrect, Emission.says_pure, Prod.mk.injEq] at h
      obtain ⟨rfl, rfl, rfl⟩ := h
      exact ⟨rfl, .inr ⟨rfl, rfl, rfl⟩⟩

end Correcting

namespace Reducing

/-- A row is handed on, or dropped if it repeats the one before. -/
theorem says_onRow {s s' : Reducing} {row : Solution} {t : Trace} {more : Bool}
    (h : (pipe.onRow s row).Says t (more, s')) :
    (s.previous = some row ∧ more = true ∧ t = [] ∧ s' = s) ∨
      (s.previous ≠ some row ∧ t = [.row row more] ∧ s' = ⟨some row⟩) := by
  simp only [pipe, Pipe.ofRow] at h
  split at h
  next hSame =>
    obtain ⟨rfl, hEq⟩ := h
    obtain ⟨rfl, rfl⟩ := Prod.mk.inj hEq
    exact .inl ⟨hSame, rfl, rfl, rfl⟩
  next hOther =>
    simp only [bind_pure_comp, Emission.says_map, Emission.says_push, Prod.mk.injEq] at h
    obtain ⟨_, rfl, rfl, rfl⟩ := h
    exact .inr ⟨hOther, rfl, rfl⟩

end Reducing

namespace Deduplicating

/-- A row is refused by a closed set, handed on, dropped, or fails the operator. -/
theorem says_onRow {s s' : Deduplicating} {row : Solution} {t : Trace} {more : Bool}
    (h : (s.onRow row).Says t (more, s')) :
    (s.seen.closed = true ∧ more = false ∧ t = [] ∧ s' = s) ∨
    (s.seen.closed = false ∧ s'.seen.closed = false ∧
      (t = [.row row more] ∨ (more = true ∧ t = []))) ∨
    (s.seen.closed = false ∧ more = false ∧ (∃ error, t = [.fail error]) ∧
      s'.seen.closed = true) := by
  unfold onRow at h
  obtain ⟨hClosed, hAdd⟩ | ⟨hOpen, isNew, seen, hAdd, hSeen, -⟩ | ⟨hOpen, hAdd, -⟩ :=
    s.seen.add_cases row
  · simp only [hAdd, Emission.says_pure, Prod.mk.injEq] at h
    obtain ⟨rfl, rfl, rfl⟩ := h
    exact .inl ⟨hClosed, rfl, rfl, rfl⟩
  · cases isNew with
    | true =>
        simp only [hAdd, bind_pure_comp, Emission.says_map, Emission.says_push, Prod.mk.injEq] at h
        obtain ⟨_, rfl, rfl, rfl⟩ := h
        exact .inr (.inl ⟨hOpen, hSeen, .inl rfl⟩)
    | false =>
        simp only [hAdd, Emission.says_pure, Prod.mk.injEq] at h
        obtain ⟨rfl, rfl, rfl⟩ := h
        exact .inr (.inl ⟨hOpen, hSeen, .inr ⟨rfl, rfl⟩⟩)
  · simp only [hAdd, SpillOptions.unwritable, bind_pure_comp, Emission.says_map,
      Emission.says_report, Prod.mk.injEq] at h
    obtain ⟨_, rfl, rfl, rfl⟩ := h
    exact .inr (.inr ⟨hOpen, rfl, ⟨_, rfl⟩, rfl⟩)

end Deduplicating

namespace Window

/-- A row is refused by a closed window, or counted and then left out, handed on, handed on with the
end behind it, or refused. -/
theorem says_onRow {w w' : Window} {row : Solution} {t : Trace} {more : Bool}
    (h : (w.onRow row).Says t (more, w')) :
    (w.closed = true ∧ more = false ∧ t = [] ∧ w' = w) ∨
    (w.closed = false ∧ w.nextNumber ≤ w.offset ∧ more = true ∧ t = [] ∧
      w' = { w with count := w.nextNumber }) ∨
    (w.closed = false ∧ w.offset < w.nextNumber ∧ w.nextNumber < w.last ∧ t = [.row row more] ∧
      w' = { w with count := w.nextNumber, closed := !more }) ∨
    (w.closed = false ∧ w.offset < w.nextNumber ∧ w.nextNumber = w.last ∧ more = false ∧
      (t = [.row row true, .finish] ∨ t = [.row row false]) ∧
      w' = { w with count := w.nextNumber, closed := true }) ∨
    (w.closed = false ∧ w.offset < w.nextNumber ∧ w.last < w.nextNumber ∧ more = false ∧ t = [] ∧
      w' = { w with count := w.nextNumber }) := by
  unfold onRow at h
  split at h
  next hClosed =>
    obtain ⟨rfl, hEq⟩ := h
    obtain ⟨rfl, rfl⟩ := Prod.mk.inj hEq
    exact .inl ⟨hClosed, rfl, rfl, rfl⟩
  next hOpen =>
    rw [Bool.not_eq_true] at hOpen
    right
    dsimp only at h
    split at h
    next hSkip =>
      obtain ⟨rfl, hEq⟩ := h
      obtain ⟨rfl, rfl⟩ := Prod.mk.inj hEq
      exact .inl ⟨hOpen, hSkip, rfl, rfl, rfl⟩
    next hPast =>
      right
      rw [Nat.not_le] at hPast
      split at h
      next hInside =>
        simp only [bind_pure_comp, Emission.says_map, Emission.says_push, Prod.mk.injEq] at h
        obtain ⟨_, rfl, rfl, rfl⟩ := h
        exact .inl ⟨hOpen, hPast, hInside, rfl, rfl⟩
      next hNotInside =>
        right
        split at h
        next hLast =>
          obtain ⟨t₁, reply, t₂, hPush, hRest, rfl⟩ := Emission.says_bind.mp h
          obtain rfl := Emission.says_push.mp hPush
          cases reply with
          | true =>
              simp only [↓reduceIte, bind_pure_comp, Emission.says_map, Emission.says_finished,
                Prod.mk.injEq] at hRest
              obtain ⟨_, rfl, rfl, rfl⟩ := hRest
              exact .inl ⟨hOpen, hPast, hLast, rfl, .inl rfl, rfl⟩
          | false =>
              simp only [Bool.false_eq_true, ↓reduceIte, Emission.says_pure,
                Prod.mk.injEq] at hRest
              obtain ⟨rfl, rfl, rfl⟩ := hRest
              exact .inl ⟨hOpen, hPast, hLast, rfl, .inr rfl, rfl⟩
        next hNotLast =>
          obtain ⟨rfl, hEq⟩ := h
          obtain ⟨rfl, rfl⟩ := Prod.mk.inj hEq
          have hBeyond : w.last < w.nextNumber := by omega
          exact .inr ⟨hOpen, hPast, hBeyond, rfl, rfl, rfl⟩

theorem says_onFinish {w w' : Window} {t : Trace} (h : w.onFinish.Says t w') :
    w' = { w with closed := true } ∧
      (w.closed = true ∧ t = [] ∨ w.closed = false ∧ t = [.finish]) := by
  unfold onFinish at h
  split at h
  next hClosed =>
    obtain ⟨rfl, rfl⟩ := h
    exact ⟨by rw [← hClosed], .inl ⟨hClosed, rfl⟩⟩
  next hOpen =>
    simp only [bind_pure_comp, Emission.says_map, Emission.says_finished] at h
    obtain ⟨_, rfl, rfl⟩ := h
    exact ⟨rfl, .inr ⟨by simpa using hOpen, rfl⟩⟩

end Window

namespace Sorter

variable {κ : Type}

/-- A sorter that is open stays open, whether it can write a run or not. -/
theorem spill_cases {s : Sorter κ} (hOpen : s.closed = false) :
    (∃ s', s.spill = (.ok (), s') ∧ s'.closed = false) ∨
      s.spill = (.error SpillOptions.unwritable, s) := by
  unfold spill
  split
  · exact .inl ⟨s, rfl, hOpen⟩
  · split
    · exact .inl ⟨_, rfl, hOpen⟩
    · exact .inr rfl

variable [Ord κ]

/-- A closed sorter refuses; an open one takes the key, or cannot make its file. -/
theorem add_cases (s : Sorter κ) (key : κ) :
    (s.closed = true ∧ s.add key = (.error .closed, s)) ∨
    (s.closed = false ∧ ∃ s', s.add key = (.ok (), s') ∧ s'.closed = false) ∨
    (s.closed = false ∧ ∃ s', s.add key = (.error SpillOptions.unwritable, s')) := by
  unfold add
  split
  next hClosed => exact .inl ⟨hClosed, rfl⟩
  next hOpen =>
    have hOpen : s.closed = false := by simpa using hOpen
    split
    · exact .inr (.inl ⟨hOpen, s, rfl, hOpen⟩)
    · have hTrim : (trim { s with held := Counted.add key 1 s.held, size := s.size + 1 }).closed =
          false := hOpen
      obtain hDone | hFull := spill_cases hTrim
      · exact .inr (.inl ⟨hOpen, hDone⟩)
      · exact .inr (.inr ⟨hOpen, _, hFull⟩)

end Sorter

namespace Sorting

theorem says_failWith {s s' : Sorting} {error : QueryError} {t : Trace} :
    (s.failWith error).Says t s' ↔ t = [.fail error] ∧ s' = s.close := by
  simp [failWith]

/-- Part of what was collected has been given up. -/
def Shut (s : Sorting) : Prop :=
  s.sorter.closed = true ∨ ∃ seen, s.seen = some seen ∧ seen.closed = true

/-- A row is taken in silence, refused by a closed sort, or fails the sort. -/
def Takes (s : Sorting) (more : Bool) (t : Trace) (s' : Sorting) : Prop :=
  (more = true ∧ t = [] ∧ (s'.Shut → s.Shut)) ∨ (more = false ∧ t = [] ∧ s.Shut) ∨
    (more = false ∧ ∃ error, t = [.fail error])

theorem says_refuse {s s' : Sorting} {t : Trace} {more : Bool}
    (h : (s.refuse SpillOptions.unwritable).Says t (more, s')) :
    more = false ∧ ∃ error, t = [.fail error] := by
  simp only [SpillOptions.unwritable, refuse, bind_pure_comp, Emission.says_map, says_failWith,
    Prod.mk.injEq] at h
  obtain ⟨_, ⟨rfl, -⟩, rfl, -⟩ := h
  exact ⟨rfl, _, rfl⟩

theorem says_collect {env : Environment} {s s' : Sorting} {row : Solution} {t : Trace}
    {more : Bool} (h : (s.collect env row).Says t (more, s')) : s.Takes more t s' := by
  simp only [collect, Emission.says_bind, Emission.says_asking] at h
  obtain ⟨t₁, outcome, t₂, ⟨rfl, -⟩, hRest, rfl⟩ := h
  cases outcome with
  | error error =>
      simp only [bind_pure_comp, Emission.says_map, says_failWith, Prod.mk.injEq] at hRest
      obtain ⟨_, ⟨rfl, -⟩, rfl, -⟩ := hRest
      exact .inr (.inr ⟨rfl, error, rfl⟩)
  | ok values =>
      obtain ⟨hClosed, hAdd⟩ | ⟨hOpen, sorter, hAdd, hSorter⟩ | ⟨hOpen, sorter, hAdd⟩ :=
        s.sorter.add_cases ⟨values, s.arrivals, row⟩
      · simp only [hAdd, refuse, Emission.says_pure, Prod.mk.injEq] at hRest
        obtain ⟨rfl, rfl, -⟩ := hRest
        exact .inr (.inl ⟨rfl, rfl, .inl hClosed⟩)
      · simp only [hAdd, Emission.says_pure, Prod.mk.injEq] at hRest
        obtain ⟨rfl, rfl, rfl⟩ := hRest
        exact .inl ⟨rfl, rfl, Or.imp_left fun hClosed => by simp [hSorter] at hClosed⟩
      · simp only [hAdd] at hRest
        exact .inr (.inr (says_refuse hRest))

theorem says_onRow {env : Environment} {s s' : Sorting} {row : Solution} {t : Trace} {more : Bool}
    (h : (s.onRow env row).Says t (more, s')) : s.Takes more t s' := by
  cases hSeen : s.seen with
  | none =>
      simp only [onRow, note, hSeen] at h
      exact says_collect h
  | some seen =>
      simp only [onRow, note, hSeen] at h
      obtain ⟨hClosed, hAdd⟩ | ⟨hOpen, isNew, seen', hAdd, hStill, -⟩ | ⟨hOpen, hAdd, -⟩ :=
        seen.add_cases row
      · simp only [hAdd, refuse, Emission.says_pure, Prod.mk.injEq] at h
        obtain ⟨rfl, rfl, -⟩ := h
        exact .inr (.inl ⟨rfl, rfl, .inr ⟨seen, hSeen, hClosed⟩⟩)
      · have hShut : Sorting.Shut { s with seen := some seen' } → s.Shut := by
          rintro (hClosed | ⟨_, hSome, hClosed⟩)
          · exact .inl hClosed
          · obtain rfl := Option.some.inj hSome
            simp [hStill] at hClosed
        cases isNew with
        | true =>
            simp only [hAdd] at h
            obtain ⟨rfl, rfl, hSame⟩ | ⟨rfl, rfl, hNow⟩ | hFail := says_collect h
            · exact .inl ⟨rfl, rfl, fun hNow => hShut (hSame hNow)⟩
            · exact .inr (.inl ⟨rfl, rfl, hShut hNow⟩)
            · exact .inr (.inr hFail)
        | false =>
            simp only [hAdd, Emission.says_pure, Prod.mk.injEq] at h
            obtain ⟨rfl, rfl, rfl⟩ := h
            exact .inl ⟨rfl, rfl, hShut⟩
      · simp only [hAdd] at h
        exact .inr (.inr (says_refuse h))

/-- At the end a closed sort says nothing. An open one hands on its rows, and the end behind the last
if all were accepted. -/
theorem says_onFinish {s s' : Sorting} {t : Trace} (h : s.onFinish.Says t s') :
    (s.sorter.closed = true ∧ t = []) ∨
      (s.sorter.closed = false ∧ ∃ u more,
        (Emission.pushAll (rows s.sorter.sorted)).Says u more ∧
          t = u ++ if more then [.finish] else []) := by
  cases hClosed : s.sorter.closed with
  | true =>
      simp only [onFinish, Sorter.drain, hClosed, ↓reduceIte, Emission.says_pure] at h
      exact .inl ⟨rfl, h.1⟩
  | false =>
      simp only [onFinish, Sorter.drain, hClosed, Bool.false_eq_true, ↓reduceIte] at h
      obtain ⟨u, more, t₂, hPush, hRest, rfl⟩ := Emission.says_bind.mp h
      refine .inr ⟨rfl, u, more, hPush, ?_⟩
      cases more with
      | true =>
          simp only [↓reduceIte, bind_pure_comp, Emission.says_map, Emission.says_finished] at hRest
          obtain ⟨_, rfl, -⟩ := hRest
          rfl
      | false =>
          simp only [Bool.false_eq_true, ↓reduceIte, Emission.says_pure] at hRest
          rw [hRest.1]
          rfl

end Sorting

end SolutionFlow
