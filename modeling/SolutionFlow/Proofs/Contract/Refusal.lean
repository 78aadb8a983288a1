import SolutionFlow.Proofs.Contract.Refusing
import SolutionFlow.Proofs.Flow.Execution
import SolutionFlow.Proofs.Flow.Split

/-! No push after a refusal. Once the consumer of a query has refused a row, it is handed no further row
and no end: whatever the plan is, in whatever order its jobs make their steps, and whatever the consumer
replies or tells of itself. -/
namespace SolutionFlow

variable {env : Environment}

namespace Process

theorem heeds_single (row : Solution) : (single row).Heeds (Heeds env) false := by
  refine ⟨rfl, fun more => ?_⟩
  cases more with
  | true => exact ⟨rfl, heeds_idle⟩
  | false => exact heeds_idle

theorem heeds_nothing : nothing.Heeds (Heeds env) false := ⟨rfl, heeds_idle⟩

theorem heeds_calling (kind : String) (call : Environment → Timed Call) :
    (calling kind call).Heeds (Heeds env) false := by
  simp only [calling, Emission.heeds_bind, Emission.heeds_time, Emission.heeds_pure]
  exact fun _ => heeds_leaf fun h => absurd h Bool.false_ne_true

theorem heeds_reportIfHeard_idle (error : QueryError) :
    (do
      Emission.reportIfHeard error
      return Process.idle).Heeds (Heeds env) false := by
  simp only [Emission.heeds_bind, Emission.heeds_pure]
  exact Emission.heeds_reportIfHeard heeds_idle

theorem heeds_callingOn {α : Type} (kind collaborator : String) (helper : Option α)
    (call : α → Environment → Timed Call) :
    (callingOn kind collaborator helper call).Heeds (Heeds env) false := by
  cases helper with
  | none => exact heeds_reportIfHeard_idle _
  | some h => exact heeds_calling kind (call h)

theorem heeds_zeroLength (ends : PathEnds) (seed : Solution) :
    (zeroLength env ends seed).Heeds (Heeds env) false := by
  unfold zeroLength
  split
  · split
    · exact heeds_single seed
    · exact heeds_nothing
  · exact heeds_callingOn ..

theorem heeds_service (endpoint : Slot) (arg : Plan) (silent : Bool) (seed : Solution) :
    (service env endpoint arg silent seed).Heeds (Heeds env) false := by
  unfold service
  split
  · exact heeds_calling _ _
  · split
    · exact heeds_single seed
    · exact heeds_reportIfHeard_idle _
  · exact heeds_reportIfHeard_idle _

/-- A merge above two processes. -/
theorem heeds_underUnion {left right : Emission Process} (hLeft : left.Heeds (Heeds env) false)
    (hRight : right.Heeds (Heeds env) false) : (underUnion env left right).Heeds (Heeds env) false := by
  have hPipe (k : Nat) (marks : List Bool) (hLt : k < marks.length) :
      (Operator.pipe env 0).Heeds fun arg own op => Operator.FitsUnion op own (marks.set k arg) :=
    Operator.heeds_wrap (fun _ => rfl) (Completion.heeds hLt)
  have hFirst : Operator.FitsUnion (.union (.new 2)) false ([false, false].set 0 false) :=
    ⟨_, rfl, .new [false, false]⟩
  simp only [underUnion, Emission.heeds_bind, Emission.heeds_pure]
  refine ((hPipe 0 [false, false] (by decide)).through hFirst hLeft).mono ?_
  rintro own ⟨first, op⟩ ⟨was, hProcess, hState⟩
  refine ((hPipe 1 [was, false] (by simp)).through hState hRight).mono ?_
  rintro own ⟨second, op⟩ ⟨closed, hOther, hLast⟩
  exact heeds_node Operator.heeds_union hLast hProcess (.cons hOther .nil)

end Process

namespace Plan

open Process

/-- Every plan heeds what its consumer replies, whatever its seed and its place in the query. -/
theorem heeds : (plan : Plan) → (seed : Solution) → (scope : Scope) →
    (plan.start env seed scope).Heeds (Process.Heeds env) false
  | .pattern _, _, _ => heeds_calling _ _
  | .external _, _, _ => heeds_calling _ _
  | .inline _ _, _, _ => heeds_calling _ _
  | .zeroLengthPath ends, seed, _ => heeds_zeroLength ends seed
  | .arbitraryLengthPath _ _ _, _, _ => heeds_callingOn _ _ _ _
  | .group _ _ _, _, _ => heeds_callingOn _ _ _ _
  | .describe _, _, _ => heeds_callingOn _ _ _ _
  | .service endpoint arg silent, seed, _ => heeds_service endpoint arg silent seed
  | .singleton, seed, _ => heeds_single seed
  | .empty, _, _ => heeds_nothing
  | .root arg, seed, scope => by
      simp only [start, Emission.heeds_bind, Emission.heeds_timed]
      exact fun _ => arg.heeds seed scope.descend
  | .project arg _, seed, scope =>
      heeds_underOne (fun _ => rfl) (fun _ _ => rfl) Projecting.heeds nofun (arg.heeds seed _)
  | .multiProject arg _, seed, scope =>
      heeds_underOne (fun _ => rfl) (fun _ _ => rfl) MultiProjecting.heeds nofun (arg.heeds seed _)
  | .filter arg _, seed, scope =>
      heeds_underOne (fun _ => rfl) (fun _ _ => rfl) Filtering.heeds nofun (arg.heeds seed _)
  | .extend arg _, seed, scope =>
      heeds_underOne (fun _ => rfl) (fun _ _ => rfl) Extending.heeds nofun (arg.heeds seed _)
  | .distinct arg, seed, scope =>
      heeds_underOne (fun _ => rfl) (fun _ _ => rfl) Deduplicating.heeds nofun (arg.heeds seed _)
  | .reduced arg, seed, scope =>
      heeds_underOne (fun _ => rfl) (fun _ _ => rfl) Reducing.heeds nofun (arg.heeds seed _)
  | .order arg _, seed, scope =>
      heeds_underOne (fun _ => rfl) (fun _ _ => rfl) Sorting.heeds nofun (arg.heeds seed _)
  | .slice arg _ limit, seed, scope => by
      rw [start]
      split
      · exact heeds_nothing
      · exact heeds_underOne (fun _ => rfl) (fun _ _ => rfl) Window.heeds nofun (arg.heeds seed _)
  | .join left right, seed, scope =>
      heeds_under (Operator.heeds_join fun row => right.heeds row scope.descend)
        ⟨_, rfl, ⟨rfl, rfl⟩, .new [false]⟩ (left.heeds seed scope.descend)
  | .leftJoin left right condition, seed, scope => by
      have hInner (rest : Solution) : (startLeftJoin env left right condition rest scope).Heeds
          (Process.Heeds env) false :=
        heeds_under (Operator.heeds_leftJoin fun row => right.heeds row scope.descend)
          ⟨_, rfl, ⟨rfl, rfl⟩, .new [false]⟩ (left.heeds rest scope.descend)
      rw [start]
      split
      · exact hInner _
      · exact heeds_underOne (fun _ => rfl) (fun _ _ => rfl) Correcting.heeds nofun (hInner _)
  | .union left right, seed, scope =>
      heeds_underUnion (left.heeds seed scope.descend) (right.heeds seed scope.descend)
  | .intersection left right, seed, scope =>
      heeds_under (Operator.heeds_setFilter (left.heeds seed scope.descend))
        ⟨_, rfl, ⟨rfl, rfl, rfl⟩, .inl ⟨rfl, rfl⟩⟩ (right.heeds seed scope.descend)
  | .difference left right, seed, scope =>
      heeds_under (Operator.heeds_setFilter (left.heeds seed scope.descend))
        ⟨_, rfl, ⟨rfl, rfl, rfl⟩, .inl ⟨rfl, rfl⟩⟩ (right.heeds seed scope.descend)

end Plan

namespace Trace

/-- Whether a stream is closed: it has ended, or one of its rows was refused. -/
def closed (t : Trace) : Bool := t.any Event.closes

@[simp]
theorem closed_nil : closed [] = false := rfl

@[simp]
theorem closed_append (t u : Trace) : closed (t ++ u) = (t.closed || u.closed) := List.any_append

@[simp]
theorem closed_cons (e : Event) (t : Trace) : closed (e :: t) = (e.closes || t.closed) := rfl

/-- An orderly trace can go on with a failure, and with anything while its stream is not closed. -/
theorem Orderly.concat {t : Trace} (h : t.Orderly) {e : Event}
    (hGoes : t.closed = false ∨ e.isFailure = true) : Orderly (t ++ [e]) := by
  refine orderly_concat.mpr ⟨h, fun hOver => ?_⟩
  obtain ⟨event, hMem, hCloses⟩ := (closes_iff t).mpr hOver
  refine hGoes.resolve_left fun hOpen => ?_
  simp [List.any_eq_true.mpr ⟨event, hMem, hCloses⟩, closed] at hOpen

end Trace

namespace Emission

variable {α : Type}

/-- What is said after an orderly beginning keeps the order, if it heeds that the stream is closed. -/
theorem Heeds.tells {K : Bool → α → Prop} {e : Emission α} {before t : Trace} {value : α}
    (hBefore : before.Orderly) (h : e.Heeds K before.closed) (hTells : e.Tells t value) :
    Trace.Orderly (before ++ t) ∧ K (Trace.closed (before ++ t)) value := by
  induction e generalizing before t with
  | done value =>
      obtain ⟨rfl, rfl⟩ := hTells
      rw [List.append_nil]
      exact ⟨hBefore, h⟩
  | emit row next ih =>
      obtain ⟨more, u, rfl, hNext⟩ := hTells
      obtain ⟨hOpen, hReply⟩ := h
      have hOver : (next more).Heeds K (Trace.closed (before ++ [.row row more])) := by
        simpa [hOpen, Event.closes] using hReply more
      simpa using ih more (hBefore.concat (.inl hOpen)) hOver hNext
  | finish next ih =>
      obtain ⟨u, rfl, hNext⟩ := hTells
      obtain ⟨hOpen, hEnded⟩ := h
      have hOver : next.Heeds K (Trace.closed (before ++ [.finish])) := by
        simpa [Event.closes] using hEnded
      simpa using ih (hBefore.concat (.inl hOpen)) hOver hNext
  | fail error next ih =>
      obtain ⟨u, rfl, hNext⟩ := hTells
      have hOver : next.Heeds K (Trace.closed (before ++ [.fail error])) := by
        simp only [Trace.closed_append, Trace.closed_cons, Trace.closed_nil, Event.closes,
          Event.isFinish, Event.isRefusal, Bool.or_false]
        exact h
      simpa using ih (hBefore.concat (.inr rfl)) hOver hNext
  | probe next ih =>
      obtain ⟨gone, hNext⟩ := hTells
      exact ih gone hBefore (h gone) hNext
  | consult next ih =>
      obtain ⟨clock, hNext⟩ := hTells
      exact ih clock hBefore (h clock) hNext
  | adjust clock next ih => exact ih hBefore h hTells

end Emission

/-- An execution of what heeds its consumer is orderly, and what is left of it goes on to heed. -/
theorem Execution.orderly {start : Emission Process} {t : Trace} {p : Process}
    (hStart : start.Heeds (Process.Heeds env) false) (execution : Execution env start t p) :
    t.Orderly ∧ p.Heeds env t.closed := by
  induction execution with
  | start first => simpa using hStart.tells Trace.orderly_nil first
  | step prior hLive last ih => exact (ih.2.deliver _).tells ih.1 last

namespace Plan

variable {plan : Plan} {seed : Solution} {scope : Scope} {t before after : Trace} {p : Process}
  {row : Solution}

/-- After a refusal the consumer is handed no row and no end: in every execution of every plan, from
every seed and in every order of its steps. -/
theorem silent_after_refusal (execution : Execution env (plan.start env seed scope) t p)
    (hRefused : t = before ++ .row row false :: after) :
    (∀ other more, .row other more ∉ after) ∧ .finish ∉ after := by
  have hOrderly := (execution.orderly (plan.heeds seed scope)).1
  rw [hRefused, Trace.Orderly, List.pairwise_append, List.pairwise_cons] at hOrderly
  have hFailures : ∀ e ∈ after, e.isFailure = true := fun e hMem => hOrderly.2.1.1 e hMem rfl
  refine ⟨fun other more hMem => ?_, fun hMem => ?_⟩
  · simpa using hFailures _ hMem
  · simpa using hFailures _ hMem

/-- A source of one row has it refused. Next to it a source fails, which is still reported. -/
theorem silent_after_refusal_union :
    let env : Environment := .ofDataset .empty
    let error : QueryError := .evaluation "lost"
    let plan : Plan := union (external ⟨[], fun _ => .immediate (.failed error)⟩) singleton
    ∃ p, Execution env (plan.start env .empty .root) [.row .empty false, .fail error] p ∧
      p.Finished ∧ .finish ∉ [Event.fail error] := by
  intro env error plan
  have first : Execution env (plan.start env .empty .root) [.row .empty false] _ :=
    .start ⟨.starting 0, false, _, rfl, rfl, rfl⟩
  have called : Execution env (plan.start env .empty .root) [.row .empty false] _ :=
    first.step (show Process.Live _ [0] from ⟨_, rfl, rfl⟩)
      ⟨false, .starting 0, .starting 0, rfl, rfl⟩
  have failed : Execution env (plan.start env .empty .root) [.row .empty false, .fail error] _ :=
    called.step (show Process.Live _ [0] from ⟨_, rfl, rfl⟩) ⟨false, _, rfl, rfl, rfl⟩
  have hRefused : ([.row .empty false, .fail error] : Trace) =
      [] ++ .row .empty false :: [.fail error] := rfl
  refine ⟨_, failed, Process.finished_of_earliest _ rfl, ?_⟩
  exact (silent_after_refusal failed hRefused).2

end Plan

end SolutionFlow
