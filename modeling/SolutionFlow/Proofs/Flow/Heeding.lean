import Mathlib.Data.List.Forall2
import SolutionFlow.Proofs.Flow.Run
import SolutionFlow.Proofs.Flow.Weave

/-! Streams that heed a refusal: once a row of theirs has been refused, or once they have ended, they
hand over no row and no end, whatever else they are told and whatever the clock shows. An operator heeds
the refusals of its own stream if its arguments heed theirs, for what is over above it is told, or will be
told, to those below. -/
namespace SolutionFlow

namespace Emission

variable {α β : Type}

/-- However an emission goes on, it brings a row or an end only while its stream is not closed, and
leaves behind what `K` says. A stream is closed when a row has been refused or it has ended. -/
def Heeds (K : Bool → α → Prop) : Emission α → Bool → Prop
  | .done value, closed => K closed value
  | .emit _ next, closed => closed = false ∧ ∀ more, (next more).Heeds K (!more)
  | .finish next, closed => closed = false ∧ next.Heeds K true
  | .fail _ next, closed => next.Heeds K closed
  | .probe next, closed => ∀ gone, (next gone).Heeds K closed
  | .consult next, closed => ∀ clock, (next clock).Heeds K closed
  | .adjust _ next, closed => next.Heeds K closed

variable {closed : Bool}

theorem Heeds.mono {K K' : Bool → α → Prop} {e : Emission α} (h : e.Heeds K closed)
    (hValue : ∀ closed value, K closed value → K' closed value) : e.Heeds K' closed := by
  induction e generalizing closed with
  | done value => exact hValue closed value h
  | emit row next ih => exact ⟨h.1, fun more => ih more (h.2 more)⟩
  | finish next ih => exact ⟨h.1, ih h.2⟩
  | fail error next ih => exact ih h
  | probe next ih => exact fun gone => ih gone (h gone)
  | consult next ih => exact fun clock => ih clock (h clock)
  | adjust clock next ih => exact ih h

@[simp]
theorem heeds_bind {e : Emission α} {f : α → Emission β} {K : Bool → β → Prop} :
    (e >>= f).Heeds K closed ↔ e.Heeds (fun closed value => (f value).Heeds K closed) closed := by
  change (e.bind f).Heeds K closed ↔ _
  induction e generalizing closed with
  | done value => exact Iff.rfl
  | emit row next ih => exact and_congr_right fun _ => forall_congr' fun more => ih more
  | finish next ih => exact and_congr_right fun _ => ih
  | fail error next ih => exact ih
  | probe next ih => exact forall_congr' fun gone => ih gone
  | consult next ih => exact forall_congr' fun clock => ih clock
  | adjust clock next ih => exact ih

@[simp]
theorem heeds_map {e : Emission α} {f : α → β} {K : Bool → β → Prop} :
    (f <$> e).Heeds K closed ↔ e.Heeds (fun closed value => K closed (f value)) closed := by
  rw [← bind_pure_comp, heeds_bind]
  rfl

@[simp]
theorem heeds_pure {value : α} {K : Bool → α → Prop} :
    (pure value : Emission α).Heeds K closed ↔ K closed value := Iff.rfl

@[simp]
theorem heeds_push {row : Solution} {K : Bool → Bool → Prop} :
    (push row).Heeds K closed ↔ closed = false ∧ ∀ more, K (!more) more := Iff.rfl

@[simp]
theorem heeds_finished {K : Bool → Unit → Prop} :
    finished.Heeds K closed ↔ closed = false ∧ K true () := Iff.rfl

@[simp]
theorem heeds_report {error : QueryError} {K : Bool → Unit → Prop} :
    (report error).Heeds K closed ↔ K closed () := Iff.rfl

@[simp]
theorem heeds_isGone {K : Bool → Bool → Prop} : isGone.Heeds K closed ↔ ∀ gone, K closed gone := Iff.rfl

@[simp]
theorem heeds_timed {act : Timed α} {K : Bool → α → Prop} :
    (timed act).Heeds K closed ↔ ∀ clock, K closed (act clock).1 := Iff.rfl

@[simp]
theorem heeds_asking {env : Environment} {act : Surroundings → Timed α} {K : Bool → α → Prop} :
    (asking env act).Heeds K closed ↔
      ∀ gone clock, K closed (act (env.surroundingsIf gone) clock).1 := Iff.rfl

@[simp]
theorem heeds_time {K : Bool → Nat → Prop} :
    time.Heeds K closed ↔ ∀ clock : Clock, K closed clock.time := Iff.rfl

theorem heeds_reportIfHeard {error : QueryError} {K : Bool → Unit → Prop} (h : K closed ()) :
    (reportIfHeard error).Heeds K closed := by
  simp only [reportIfHeard, heeds_bind, heeds_isGone]
  intro gone
  cases gone <;> exact h

/-- Rows are handed over up to the first that is refused. -/
theorem heeds_pushAll {rows : List Solution} {K : Bool → Bool → Prop} (h : ∀ more, K (!more) more) :
    (pushAll rows).Heeds K false := by
  induction rows with
  | nil => exact h true
  | cons row rest ih =>
      refine ⟨rfl, fun more => ?_⟩
      cases more with
      | true => exact ih
      | false => exact h false

end Emission

namespace Pipe

variable {σ α : Type}

/-- An operator hands over rows and ends only while its own stream is not closed, as long as its argument
does the same. `Fit` says which states go together with whether the stream of the argument and its own
one are closed. -/
structure Heeds (p : Pipe σ) (Fit : Bool → Bool → σ → Prop) : Prop where
  onRow : ∀ own s row, Fit false own s →
    (p.onRow s row).Heeds (fun own reply => Fit (!reply.1) own reply.2) own
  onFinish : ∀ own s, Fit false own s → (p.onFinish s).Heeds (Fit true) own
  onFail : ∀ arg own s error, Fit arg own s → (p.onFail s error).Heeds (Fit arg) own

/-- What goes through such an operator comes out as it should. -/
theorem Heeds.through {p : Pipe σ} {Fit : Bool → Bool → σ → Prop} (h : p.Heeds Fit) {arg own : Bool}
    {s : σ} (hState : Fit arg own s) {e : Emission α} {K : Bool → α → Prop} (hEmission : e.Heeds K arg) :
    (p.through s e).Heeds (fun own result => ∃ arg, K arg result.1 ∧ Fit arg own result.2) own := by
  induction e generalizing arg own s with
  | done value => exact ⟨arg, hEmission, hState⟩
  | emit row next ih =>
      obtain ⟨rfl, hNext⟩ := hEmission
      exact Emission.heeds_bind.mpr <| (h.onRow own s row hState).mono
        fun _ reply hReply => ih reply.1 hReply (hNext reply.1)
  | finish next ih =>
      obtain ⟨rfl, hNext⟩ := hEmission
      exact Emission.heeds_bind.mpr <| (h.onFinish own s hState).mono fun _ _ hState => ih hState hNext
  | fail error next ih =>
      exact Emission.heeds_bind.mpr <| (h.onFail arg own s error hState).mono
        fun _ _ hState => ih hState hEmission
  | probe next ih => exact fun gone => ih gone hState (hEmission gone)
  | consult next ih => exact fun clock => ih clock hState (hEmission clock)
  | adjust clock next ih => exact ih hState hEmission

theorem Heeds.of_iff {p : Pipe σ} {Fit Fit' : Bool → Bool → σ → Prop} (h : p.Heeds Fit)
    (hSame : ∀ arg own s, Fit' arg own s ↔ Fit arg own s) : p.Heeds Fit' := by
  have hEq : Fit' = Fit := by
    funext arg own s
    exact propext (hSame arg own s)
  exact hEq ▸ h

/-- Nothing is asked of an operator in states that do not occur. -/
theorem heeds_of_unfit {p : Pipe σ} {Fit : Bool → Bool → σ → Prop} (h : ∀ arg own s, ¬Fit arg own s) :
    p.Heeds Fit where
  onRow own s _ hFit := absurd hFit (h false own s)
  onFinish own s hFit := absurd hFit (h false own s)
  onFail arg own s _ hFit := absurd hFit (h arg own s)

/-- An operator that refuses a row of its argument with each of its own that is refused. -/
theorem heeds_ofRow {onRow : σ → Solution → Emission (Bool × σ)}
    (h : ∀ s row, (onRow s row).Heeds (fun own reply => own = true → reply.1 = false) false) :
    (Pipe.ofRow onRow).Heeds fun arg own _ => own = true → arg = true where
  onRow own s row hState := by
    obtain rfl : own = false := by simpa using hState
    exact (h s row).mono fun own reply hReply hOver => by simp [hReply hOver]
  onFinish own s hState := by simpa [Pipe.ofRow] using hState
  onFail arg own s error hState := by simpa [Pipe.ofRow] using hState

end Pipe

namespace Job

variable {env : Environment} {job : Job} {closed : Bool}

/-- A job whose stream is closed has nothing left to do. -/
def Heeds (job : Job) (closed : Bool) : Prop := closed = true → job.isEnded = true

theorem heeds_stop (job : Job) (closed : Bool) : job.stop.Heeds closed := fun _ => rfl

theorem heeds_failWith (job : Job) (error : QueryError) :
    (job.failWith error).Heeds (fun closed job => job.Heeds closed) closed := by
  simp only [failWith, Emission.heeds_bind, Emission.heeds_pure]
  exact Emission.heeds_reportIfHeard (heeds_stop job closed)

theorem heeds_next (job : Job) (delay : Duration) (state : JobState) :
    (job.next delay state).Heeds (fun closed job => job.Heeds closed) false := by
  simp only [next, Emission.heeds_bind, Emission.heeds_time, Emission.heeds_pure]
  exact fun _ hOver => absurd hOver nofun

/-- A job hands over a row, or the end, and stops at the end and at a refusal. -/
theorem Heeds.step (h : job.Heeds closed) :
    (job.step env).Heeds (fun closed job => job.Heeds closed) closed := by
  unfold Job.step
  split
  next => exact h
  next call hState =>
    simp only [Emission.heeds_bind, Emission.heeds_isGone]
    intro gone
    split
    · exact heeds_stop job closed
    · simp only [Emission.heeds_bind, Emission.heeds_timed]
      obtain rfl : closed = false := by simpa [Heeds, isEnded, hState] using h
      exact fun clock => heeds_next job _ _
  next error hState => exact heeds_failWith job error
  next reason hState => exact heeds_failWith job _
  next items hState =>
    obtain rfl : closed = false := by simpa [Heeds, isEnded, hState] using h
    simp only [Emission.heeds_bind, Emission.heeds_isGone]
    intro gone
    split
    · exact heeds_stop job false
    · unfold handOver
      split
      next => exact ⟨rfl, heeds_stop job true⟩
      next row rest _ =>
        refine ⟨rfl, fun more => ?_⟩
        cases more with
        | true => exact heeds_next job _ _
        | false => exact heeds_stop job true
      next error rest _ => exact heeds_failWith job error

end Job

namespace Process

variable {env : Environment} {closed : Bool}

/-- A process heeds what its stream is told: there is an invariant of its steps under which they do. -/
def Heeds (env : Environment) (closed : Bool) (p : Process) : Prop :=
  ∃ Inv : Bool → Process → Prop, Inv closed p ∧
    ∀ closed q path, Inv closed q → (q.deliver env path).Heeds Inv closed

theorem Heeds.deliver {p : Process} (h : p.Heeds env closed) (path : List Nat) :
    (p.deliver env path).Heeds (Heeds env) closed := by
  obtain ⟨Inv, hFirst, hStep⟩ := h
  exact (hStep closed p path hFirst).mono fun _ _ hNext => ⟨Inv, hNext, hStep⟩

theorem heeds_idle : idle.Heeds env closed := by
  refine ⟨fun _ p => p = .idle, rfl, ?_⟩
  rintro _ _ path rfl
  cases path <;> rfl

theorem heeds_leaf {job : Job} (h : job.Heeds closed) : (leaf job).Heeds env closed := by
  refine ⟨fun closed p => ∃ job, p = .leaf job ∧ job.Heeds closed, ⟨job, rfl, h⟩, ?_⟩
  rintro closed _ path ⟨job, rfl, hJob⟩
  simp only [Process.deliver, Emission.heeds_bind, Emission.heeds_pure]
  exact hJob.step.mono fun _ next hNext => ⟨next, rfl, hNext⟩

/-- Which of the streams of some processes are closed. -/
def Streams (env : Environment) : List Process → List Bool → Prop :=
  List.Forall₂ fun p closed => p.Heeds env closed

theorem Streams.get {children : List Process} {marks : List Bool} (h : Streams env children marks)
    {k : Nat} {child : Process} (hGet : children[k]? = some child) :
    ∃ closed, marks[k]? = some closed ∧ child.Heeds env closed := by
  induction h generalizing k with
  | nil => simp at hGet
  | cons hHead hTail ih =>
      cases k with
      | zero =>
          obtain rfl := Option.some.inj hGet
          exact ⟨_, rfl, hHead⟩
      | succ k => exact ih hGet

theorem Streams.set {children : List Process} {marks : List Bool} (h : Streams env children marks)
    {child : Process} (hChild : child.Heeds env closed) (k : Nat) :
    Streams env (children.set k child) (marks.set k closed) := by
  induction h generalizing k with
  | nil => exact .nil
  | cons hHead hTail ih =>
      cases k with
      | zero => exact .cons hChild hTail
      | succ k => exact .cons hHead (ih k)

end Process

namespace Operator

open Process (Streams)

variable {env : Environment} {spawn : Solution → Emission Process}
  {Fit : Operator → Bool → List Bool → Prop}

/-- An operator in a fit state stays in one, whichever branch it answers. -/
def HeedsBranches (env : Environment) (Fit : Operator → Bool → List Bool → Prop) : Prop :=
  ∀ (k j : Nat) (first : Bool) (branches : List Bool), j < branches.length →
    (pipe env k).Heeds fun arg own op => Fit op own (first :: branches.set j arg)

/-- An operator heeds what its stream is told, if its arguments do. `Fit` says which of its states go
together with whether its own stream is closed and which of those of its arguments are, the first one and
the branches. It starts its branches with `spawn`. -/
structure Heeds (env : Environment) (spawn : Solution → Emission Process)
    (Fit : Operator → Bool → List Bool → Prop) : Prop where
  spawn_eq : ∀ op own marks, Fit op own marks → op.spawn env = spawn
  lead : ∀ branches : List Bool, (Operator.lead env spawn).Heeds fun arg own s =>
    ∃ marks, Streams env s.2 marks ∧ Fit s.1 own (arg :: (branches ++ marks))
  branches : HeedsBranches env Fit

/-- A branch that is opened is one more stream. -/
theorem heeds_openBranch {k : Nat} {first own : Bool} {branches marks : List Bool}
    (hBranch : HeedsBranches env Fit) {op : Operator}
    (hState : Fit op own (first :: (branches ++ marks ++ [false])))
    {arg : Emission Process} (hArg : arg.Heeds (Process.Heeds env) false) {opened : List Process}
    (hOpened : Streams env opened marks) :
    (openBranch env k op arg opened).Heeds (fun own next => ∃ marks, Streams env next.2 marks ∧
      Fit next.1 own (first :: (branches ++ marks))) own := by
  have hLast (arg : Bool) : (branches ++ marks ++ [false]).set (branches ++ marks).length arg =
      branches ++ marks ++ [arg] := by simp
  have hPipe := hBranch k (branches ++ marks).length first (branches ++ marks ++ [false]) (by simp)
  simp only [hLast] at hPipe
  simp only [openBranch, Emission.heeds_bind, Emission.heeds_pure]
  refine (hPipe.through hState hArg).mono ?_
  rintro own ⟨child, op'⟩ ⟨closed, hChild, hState'⟩
  refine ⟨marks ++ [closed], List.rel_append hOpened (.cons hChild .nil), ?_⟩
  simpa using hState'

/-- An operator that starts no arguments answers its first one like the others. -/
theorem heeds_closed (hOpens : ∀ op own marks, Fit op own marks → op.opens = false)
    (hPipe : ∀ (k j : Nat) (marks : List Bool), j < marks.length →
      (pipe env k).Heeds fun arg own op => Fit op own (marks.set j arg)) :
    Operator.Heeds env (fun _ => return .idle) Fit where
  spawn_eq op own marks hState := by
    have hOpen := hOpens op own marks hState
    cases op <;> first | rfl | simp [opens] at hOpen
  lead branches :=
    { onRow := by
        rintro own ⟨op, opened⟩ row ⟨later, hOpened, hState⟩
        have hOpen := hOpens op own _ hState
        have hLead : leadRow env (fun _ => return .idle) op opened row =
            (fun reply => (reply.1, reply.2, opened)) <$> (op.react env 0).onRow row := by
          cases op <;> first | rfl | simp [opens] at hOpen
        have hFirst := hPipe 0 0 (false :: (branches ++ later)) (Nat.zero_lt_succ _)
        simp only [Operator.lead, hLead, Emission.heeds_map]
        exact (hFirst.onRow own op row hState).mono fun _ _ hNext => ⟨later, hOpened, hNext⟩
      onFinish := by
        rintro own ⟨op, opened⟩ ⟨later, hOpened, hState⟩
        have hOpen := hOpens op own _ hState
        have hLead : leadFinish env (fun _ => return .idle) op opened =
            (fun next => (next, opened)) <$> (op.react env 0).onFinish := by
          cases op <;> first | rfl | simp [opens] at hOpen
        have hFirst := hPipe 0 0 (false :: (branches ++ later)) (Nat.zero_lt_succ _)
        simp only [Operator.lead, hLead, Emission.heeds_map]
        exact (hFirst.onFinish own op hState).mono fun _ _ hNext => ⟨later, hOpened, hNext⟩
      onFail := by
        rintro arg own ⟨op, opened⟩ error ⟨later, hOpened, hState⟩
        have hFirst := hPipe 0 0 (arg :: (branches ++ later)) (Nat.zero_lt_succ _)
        simp only [Operator.lead, Emission.heeds_bind, Emission.heeds_pure]
        exact (hFirst.onFail arg own op error hState).mono fun _ _ hNext => ⟨later, hOpened, hNext⟩ }
  branches k j first branches hLt := hPipe k (j + 1) (first :: branches) (Nat.succ_lt_succ hLt)

/-- An operator with a state of one form answers its branches as the pipe on these states does. -/
theorem heeds_wrap {σ : Type} {wrap : σ → Operator} {p : Pipe σ} {Fit : Bool → Bool → σ → Prop} {k : Nat}
    (hReact : ∀ s, (wrap s).react env k = p.react s wrap) (h : p.Heeds Fit) :
    (pipe env k).Heeds fun arg own op => ∃ s, op = wrap s ∧ Fit arg own s where
  onRow := by
    rintro own _ row ⟨s, rfl, hFit⟩
    simp only [pipe, Pipe.ofReaction, hReact s, Pipe.react, Emission.heeds_bind, Emission.heeds_pure]
    exact (h.onRow own s row hFit).mono fun _ reply hNext => ⟨reply.2, rfl, hNext⟩
  onFinish := by
    rintro own _ ⟨s, rfl, hFit⟩
    simp only [pipe, Pipe.ofReaction, hReact s, Pipe.react, Emission.heeds_bind, Emission.heeds_pure]
    exact (h.onFinish own s hFit).mono fun _ s hNext => ⟨s, rfl, hNext⟩
  onFail := by
    rintro arg own _ error ⟨s, rfl, hFit⟩
    simp only [pipe, Pipe.ofReaction, hReact s, Pipe.react, Emission.heeds_bind, Emission.heeds_pure]
    exact (h.onFail arg own s error hFit).mono fun _ s hNext => ⟨s, rfl, hNext⟩

/-- An operator of one argument does what its pipe does. -/
theorem heeds_one {σ : Type} {p : Pipe σ} {wrap : σ → Operator} {Fit : Bool → Bool → σ → Prop}
    (hOpens : ∀ s, (wrap s).opens = false)
    (hReact : ∀ k s, (wrap s).react env k = p.react s wrap) (h : p.Heeds Fit) :
    Operator.Heeds env (fun _ => return .idle) fun op own marks =>
      ∃ s, op = wrap s ∧ ∃ arg, marks = [arg] ∧ Fit arg own s := by
  refine heeds_closed ?_ fun k j marks hLt => ?_
  · rintro _ own marks ⟨s, rfl, -⟩
    exact hOpens s
  · refine heeds_wrap (hReact k) ?_
    match marks, j, hLt with
    | [_], 0, _ =>
        refine h.of_iff fun arg own s => ⟨?_, fun hFit => ⟨arg, rfl, hFit⟩⟩
        rintro ⟨_, hSame, hFit⟩
        obtain rfl := (List.cons.inj hSame).1
        exact hFit
    | first :: second :: rest, j, _ =>
        refine Pipe.heeds_of_unfit fun arg own s => ?_
        rintro ⟨_, hSame, -⟩
        simpa using congrArg List.length hSame

end Operator

namespace Process

variable {env : Environment} {spawn : Solution → Emission Process}
  {Fit : Operator → Bool → List Bool → Prop} {op : Operator}

/-- What an operator does about its arguments, it does all along. -/
theorem heeds_node (h : Operator.Heeds env spawn Fit) {own closed : Bool} {marks : List Bool}
    (hState : Fit op own (closed :: marks)) {first : Process} {rest : List Process}
    (hFirst : first.Heeds env closed) (hRest : Streams env rest marks) :
    (node op (first :: rest)).Heeds env own := by
  refine ⟨fun own p => ∃ op first rest closed marks, p = .node op (first :: rest) ∧
    Fit op own (closed :: marks) ∧ first.Heeds env closed ∧ Streams env rest marks,
    ⟨op, first, rest, closed, marks, rfl, hState, hFirst, hRest⟩, ?_⟩
  rintro own _ path ⟨op, first, rest, closed, marks, rfl, hState, hFirst, hRest⟩
  have hStay : ∃ op' first' rest' closed' marks', node op (first :: rest) = .node op' (first' :: rest') ∧
      Fit op' own (closed' :: marks') ∧ first'.Heeds env closed' ∧ Streams env rest' marks' :=
    ⟨op, first, rest, closed, marks, rfl, hState, hFirst, hRest⟩
  match path with
  | [] => exact hStay
  | 0 :: path =>
      rw [deliver_lead, h.spawn_eq op own _ hState]
      simp only [Emission.heeds_bind, Emission.heeds_pure]
      have hStart : ∃ later, Streams env [] later ∧ Fit op own (closed :: (marks ++ later)) :=
        ⟨[], .nil, by simpa using hState⟩
      refine ((h.lead marks).through hStart (hFirst.deliver path)).mono ?_
      rintro own ⟨child, op', opened⟩ ⟨arg, hChild, later, hOpened, hState'⟩
      exact ⟨op', child, rest ++ opened, arg, marks ++ later, rfl, hState', hChild,
        List.rel_append hRest hOpened⟩
  | (k + 1) :: path =>
      cases hGet : rest[k]? with
      | none =>
          rw [deliver]
          simp only [deliverAt_eq, List.getElem?_cons_succ, hGet, Option.map_none]
          exact hStay
      | some child =>
          have hChildren : (first :: rest)[k + 1]? = some child := by simpa using hGet
          obtain ⟨was, hOver, hChild⟩ := hRest.get hGet
          obtain ⟨hLt, hSame⟩ := List.getElem?_eq_some_iff.mp hOver
          rw [deliver_branch env op hChildren]
          simp only [Emission.heeds_bind, Emission.heeds_pure]
          have hNow : Fit op own (closed :: marks.set k was) := by
            rwa [← hSame, List.set_getElem_self]
          refine ((h.branches k k closed marks hLt).through hNow (hChild.deliver path)).mono ?_
          rintro own ⟨child', op'⟩ ⟨arg, hChild', hState'⟩
          exact ⟨op', first, rest.set k child', closed, marks.set k arg, rfl, hState', hFirst,
            hRest.set hChild' k⟩

/-- An operator above its first argument. -/
theorem heeds_under (h : Operator.Heeds env spawn Fit) (hState : Fit op false [false])
    {arg : Emission Process} (hArg : arg.Heeds (Heeds env) false) :
    (under env op spawn arg).Heeds (Heeds env) false := by
  simp only [under, Emission.heeds_bind, Emission.heeds_pure]
  have hStart : ∃ marks, Streams env [] marks ∧ Fit op false (false :: ([] ++ marks)) :=
    ⟨[], .nil, hState⟩
  refine ((h.lead []).through hStart hArg).mono ?_
  rintro own ⟨child, op', opened⟩ ⟨closed, hChild, marks, hOpened, hState'⟩
  exact heeds_node h hState' hChild hOpened

/-- An operator above its only argument. -/
theorem heeds_underOne {σ : Type} {p : Pipe σ} {wrap : σ → Operator} {Fit : Bool → Bool → σ → Prop}
    {s : σ} (hOpens : ∀ s, (wrap s).opens = false)
    (hReact : ∀ k s, (wrap s).react env k = p.react s wrap) (h : p.Heeds Fit) (hFit : Fit false false s)
    {arg : Emission Process} (hArg : arg.Heeds (Heeds env) false) :
    (underOne env (wrap s) arg).Heeds (Heeds env) false :=
  heeds_under (Operator.heeds_one hOpens hReact h) ⟨s, rfl, false, rfl, hFit⟩ hArg

end Process

end SolutionFlow
