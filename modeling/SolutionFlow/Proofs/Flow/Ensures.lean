import SolutionFlow.Proofs.Flow.Run
import SolutionFlow.Proofs.Flow.Weave

/-! What can be said of every row that a running query hands over, whatever its consumer replies and
whatever the clock shows. An operator whose arguments hand over rows of one kind hands over rows of
another; a process is known by what each of its steps hands over. -/
namespace SolutionFlow

namespace Emission

variable {α β : Type} {P P' : Solution → Prop} {Q Q' : α → Prop}

/-- However an emission goes, its rows fulfil `P` and what it leaves behind fulfils `Q`. -/
def Ensures (P : Solution → Prop) (Q : α → Prop) : Emission α → Prop
  | .done value => Q value
  | .emit row next => P row ∧ ∀ more, (next more).Ensures P Q
  | .finish next => next.Ensures P Q
  | .fail _ next => next.Ensures P Q
  | .probe next => ∀ gone, (next gone).Ensures P Q
  | .consult next => ∀ clock, (next clock).Ensures P Q
  | .adjust _ next => next.Ensures P Q

theorem Ensures.mono {e : Emission α} (h : e.Ensures P Q) (hRows : ∀ row, P row → P' row)
    (hValue : ∀ value, Q value → Q' value) : e.Ensures P' Q' := by
  induction e with
  | done value => exact hValue value h
  | emit row next ih => exact ⟨hRows row h.1, fun more => ih more (h.2 more)⟩
  | finish next ih => exact ih h
  | fail error next ih => exact ih h
  | probe next ih => exact fun gone => ih gone (h gone)
  | consult next ih => exact fun clock => ih clock (h clock)
  | adjust clock next ih => exact ih h

theorem ensures_of_forall (e : Emission α) (hRows : ∀ row, P row) (hValue : ∀ value, Q value) :
    e.Ensures P Q := by
  induction e with
  | done value => exact hValue value
  | emit row next ih => exact ⟨hRows row, ih⟩
  | finish next ih => exact ih
  | fail error next ih => exact ih
  | probe next ih => exact ih
  | consult next ih => exact ih
  | adjust clock next ih => exact ih

@[simp]
theorem ensures_bind {e : Emission α} {f : α → Emission β} {Q : β → Prop} :
    (e >>= f).Ensures P Q ↔ e.Ensures P fun value => (f value).Ensures P Q := by
  change (e.bind f).Ensures P Q ↔ _
  induction e with
  | done value => exact Iff.rfl
  | emit row next ih => exact and_congr_right fun _ => forall_congr' fun more => ih more
  | finish next ih => exact ih
  | fail error next ih => exact ih
  | probe next ih => exact forall_congr' fun gone => ih gone
  | consult next ih => exact forall_congr' fun clock => ih clock
  | adjust clock next ih => exact ih

@[simp]
theorem ensures_map {e : Emission α} {f : α → β} {Q : β → Prop} :
    (f <$> e).Ensures P Q ↔ e.Ensures P fun value => Q (f value) := by
  rw [← bind_pure_comp, ensures_bind]
  rfl

@[simp]
theorem ensures_pure {value : α} : (pure value : Emission α).Ensures P Q ↔ Q value := Iff.rfl

@[simp]
theorem ensures_push {row : Solution} {Q : Bool → Prop} :
    (push row).Ensures P Q ↔ P row ∧ ∀ more, Q more := Iff.rfl

@[simp]
theorem ensures_finished {Q : Unit → Prop} : finished.Ensures P Q ↔ Q () := Iff.rfl

@[simp]
theorem ensures_report {error : QueryError} {Q : Unit → Prop} :
    (report error).Ensures P Q ↔ Q () := Iff.rfl

@[simp]
theorem ensures_isGone {Q : Bool → Prop} : isGone.Ensures P Q ↔ ∀ gone, Q gone := Iff.rfl

@[simp]
theorem ensures_timed {act : Timed α} : (timed act).Ensures P Q ↔ ∀ clock, Q (act clock).1 :=
  Iff.rfl

@[simp]
theorem ensures_asking {env : Environment} {act : Surroundings → Timed α} :
    (asking env act).Ensures P Q ↔ ∀ gone clock, Q (act (env.surroundingsIf gone) clock).1 :=
  Iff.rfl

@[simp]
theorem ensures_time {Q : Nat → Prop} : time.Ensures P Q ↔ ∀ clock : Clock, Q clock.time := Iff.rfl

theorem ensures_reportIfHeard {error : QueryError} {Q : Unit → Prop} (h : Q ()) :
    (reportIfHeard error).Ensures P Q := by
  simp only [reportIfHeard, ensures_bind, ensures_isGone]
  intro gone
  cases gone <;> exact h

theorem ensures_pushAll {rows : List Solution} {Q : Bool → Prop} (hRows : ∀ row ∈ rows, P row)
    (h : ∀ more, Q more) : (pushAll rows).Ensures P Q := by
  induction rows with
  | nil => exact h true
  | cons row rest ih =>
      obtain ⟨hRow, hRest⟩ := List.forall_mem_cons.mp hRows
      refine ⟨hRow, fun more => ?_⟩
      cases more with
      | true => exact ih hRest
      | false => exact h false

/-- What holds of all rows of an emission holds of the rows in its traces. -/
theorem Ensures.of_says {e : Emission α} (h : e.Ensures P Q) {t : Trace} {value : α}
    (hSays : e.Says t value) : (∀ row more, Event.row row more ∈ t → P row) ∧ Q value := by
  induction e generalizing t with
  | done value =>
      obtain ⟨rfl, rfl⟩ := hSays
      exact ⟨by simp, h⟩
  | emit row next ih =>
      obtain ⟨reply, rest, rfl, hRest⟩ := hSays
      obtain ⟨hRows, hValue⟩ := ih reply (h.2 reply) hRest
      refine ⟨fun other more hMem => ?_, hValue⟩
      rcases List.mem_cons.mp hMem with hEq | hLater
      · cases hEq
        exact h.1
      · exact hRows other more hLater
  | finish next ih =>
      obtain ⟨rest, rfl, hRest⟩ := hSays
      obtain ⟨hRows, hValue⟩ := ih h hRest
      exact ⟨by simpa using hRows, hValue⟩
  | fail error next ih =>
      obtain ⟨rest, rfl, hRest⟩ := hSays
      obtain ⟨hRows, hValue⟩ := ih h hRest
      exact ⟨by simpa using hRows, hValue⟩
  | probe next ih => exact ih false (h false) hSays
  | consult next ih =>
      obtain ⟨clock, hRest⟩ := hSays
      exact ih clock (h clock) hRest
  | adjust clock next ih => exact ih h hSays

end Emission

/-- What is done about rows that fulfil `Q` hands over rows that fulfil `P`, and what is left behind is as
`Inv` says. -/
structure Reaction.Carries {τ : Type} (r : Reaction τ) (Q P : Solution → Prop)
    (Inv : τ → Prop) : Prop where
  onRow : ∀ row, Q row → (r.onRow row).Ensures P fun reply => Inv reply.2
  onFinish : r.onFinish.Ensures P Inv
  onFail : ∀ error, (r.onFail error).Ensures P Inv

namespace Pipe

variable {σ α : Type} {P Q : Solution → Prop} {Inv : σ → Prop}

/-- An operator that answers rows that fulfil `Q` by rows that fulfil `P`, as long as its state is fit
for it, which it stays. -/
structure Carries (p : Pipe σ) (Q P : Solution → Prop) (Inv : σ → Prop) : Prop where
  onRow : ∀ s row, Inv s → Q row → (p.onRow s row).Ensures P fun reply => Inv reply.2
  onFinish : ∀ s, Inv s → (p.onFinish s).Ensures P Inv
  onFail : ∀ s error, Inv s → (p.onFail s error).Ensures P Inv

/-- What goes through such an operator comes out as the operator carries it. -/
theorem Carries.through {p : Pipe σ} (h : p.Carries Q P Inv) {s : σ} (hState : Inv s)
    {e : Emission α} {K : α → Prop} (hEmission : e.Ensures Q K) :
    (p.through s e).Ensures P fun result => K result.1 ∧ Inv result.2 := by
  induction e generalizing s with
  | done value => exact ⟨hEmission, hState⟩
  | emit row next ih =>
      exact Emission.ensures_bind.mpr <| (h.onRow s row hState hEmission.1).mono (fun _ => id)
        fun reply hReply => ih reply.1 hReply (hEmission.2 reply.1)
  | finish next ih =>
      exact Emission.ensures_bind.mpr <| (h.onFinish s hState).mono (fun _ => id)
        fun _ hNext => ih hNext hEmission
  | fail error next ih =>
      exact Emission.ensures_bind.mpr <| (h.onFail s error hState).mono (fun _ => id)
        fun _ hNext => ih hNext hEmission
  | probe next ih => exact fun gone => ih gone hState (hEmission gone)
  | consult next ih => exact fun clock => ih clock hState (hEmission clock)
  | adjust clock next ih => exact ih hState hEmission

/-- An operator that hands on ends and failures is known by what it does about rows. -/
theorem carries_ofRow {onRow : σ → Solution → Emission (Bool × σ)}
    (h : ∀ s row, Inv s → Q row → (onRow s row).Ensures P fun reply => Inv reply.2) :
    (Pipe.ofRow onRow).Carries Q P Inv where
  onRow := h
  onFinish s hState := by simpa [Pipe.ofRow] using hState
  onFail s error hState := by simpa [Pipe.ofRow] using hState

/-- An operator does the same in whatever form its state is kept. -/
theorem Carries.react {p : Pipe σ} (h : p.Carries Q P Inv) {τ : Type} {wrap : σ → τ} {s : σ}
    {Inv' : τ → Prop} (hWrap : ∀ s, Inv s → Inv' (wrap s)) (hState : Inv s) :
    (p.react s wrap).Carries Q P Inv' where
  onRow row hRow := by
    simp only [Pipe.react, Emission.ensures_bind, Emission.ensures_pure]
    exact (h.onRow s row hState hRow).mono (fun _ => id) fun _ => hWrap _
  onFinish := by
    simp only [Pipe.react, Emission.ensures_bind, Emission.ensures_pure]
    exact (h.onFinish s hState).mono (fun _ => id) fun _ => hWrap _
  onFail error := by
    simp only [Pipe.react, Emission.ensures_bind, Emission.ensures_pure]
    exact (h.onFail s error hState).mono (fun _ => id) fun _ => hWrap _

theorem carries_ofReaction {react : σ → Reaction σ}
    (h : ∀ s, Inv s → (react s).Carries Q P Inv) : (Pipe.ofReaction react).Carries Q P Inv where
  onRow s row hState := (h s hState).onRow row
  onFinish s hState := (h s hState).onFinish
  onFail s error hState := (h s hState).onFail error

end Pipe

namespace Iteration

/-- All rows that a sequence has fulfil `P`. -/
def Offers (P : Solution → Prop) : Iteration → Prop
  | .items rest => ∀ row, .ok row ∈ rest → P row
  | .endless row _ => ∀ n, P (row n)

theorem offers_ofRows {P : Solution → Prop} {rows : List Solution} :
    (ofRows rows).Offers P ↔ ∀ row ∈ rows, P row := by
  simp [ofRows, Offers]

theorem Offers.take {P : Solution → Prop} {items : Iteration} (h : items.Offers P) :
    (∀ row, items.take.1 = some (.ok row) → P row) ∧ items.take.2.Offers P := by
  cases items with
  | items rest =>
      cases rest with
      | nil => exact ⟨by simp [Iteration.take], by simp [Iteration.take, Offers]⟩
      | cons item rest =>
          refine ⟨fun row hTake => h row ?_, fun row hMem => h row (List.mem_cons_of_mem _ hMem)⟩
          rw [← Option.some.inj hTake]
          exact List.mem_cons_self
  | endless row next =>
      refine ⟨fun other hTake => ?_, h⟩
      have hRow : row next = other := by simpa [Iteration.take] using hTake
      exact hRow ▸ h next

end Iteration

/-- All rows that come of a call fulfil `P`. -/
def CallResult.Offers (P : Solution → Prop) : CallResult → Prop
  | .opened items => items.Offers P
  | _ => True

namespace Job

variable {env : Environment} {job : Job} {P : Solution → Prop}

/-- All rows that a job has still to hand over fulfil `P`. -/
def Offers (env : Environment) (P : Solution → Prop) (job : Job) : Prop :=
  match job.state with
  | .waiting call => ∀ clock, (call env clock).1.result.Offers P
  | .called result => result.Offers P
  | .ended => True

theorem offers_stop (env : Environment) (P : Solution → Prop) (job : Job) : job.stop.Offers env P :=
  trivial

theorem ensures_failWith (env : Environment) (P : Solution → Prop) (job : Job) (error : QueryError) :
    (job.failWith error).Ensures P (Offers env P) := by
  simp only [failWith, Emission.ensures_bind, Emission.ensures_pure]
  exact Emission.ensures_reportIfHeard (offers_stop env P job)

theorem ensures_next {delay : Duration} {result : CallResult} (h : result.Offers P) :
    (job.next delay (.called result)).Ensures P (Offers env P) := by
  simp only [next, Emission.ensures_bind, Emission.ensures_time, Emission.ensures_pure]
  exact fun _ => h

/-- A step of a job hands over such a row at most, and leaves such rows only. -/
theorem Offers.step (h : job.Offers env P) : (job.step env).Ensures P (Offers env P) := by
  unfold Job.step
  unfold Offers at h
  split
  next hState => exact Emission.ensures_pure.mpr (by simp [Offers, hState])
  next call hState =>
    rw [hState] at h
    simp only [Emission.ensures_bind, Emission.ensures_isGone]
    intro gone
    split
    · exact offers_stop env P job
    · simp only [Emission.ensures_bind, Emission.ensures_timed]
      exact fun clock => ensures_next (h clock)
  next error hState => exact ensures_failWith env P job error
  next reason hState => exact ensures_failWith env P job _
  next items hState =>
    rw [hState] at h
    simp only [Emission.ensures_bind, Emission.ensures_isGone]
    intro gone
    split
    · exact offers_stop env P job
    · obtain ⟨hRow, hRest⟩ := Iteration.Offers.take h
      unfold handOver
      split
      next hTake => exact offers_stop env P job
      next row rest hTake =>
        rw [hTake] at hRow hRest
        simp only [Emission.ensures_bind, Emission.ensures_push]
        refine ⟨hRow row rfl, fun more => ?_⟩
        split
        · exact ensures_next hRest
        · exact offers_stop env P job
      next error rest hTake => exact ensures_failWith env P job error

end Job

namespace Process

variable {env : Environment} {P Q R : Solution → Prop}

/-- All rows that a process will hand over fulfil `P`: there is an invariant of its steps under which
they do. -/
def Emits (env : Environment) (P : Solution → Prop) (p : Process) : Prop :=
  ∃ Inv : Process → Prop, Inv p ∧ ∀ q path, Inv q → (q.deliver env path).Ensures P Inv

theorem Emits.deliver {p : Process} (h : p.Emits env P) (path : List Nat) :
    (p.deliver env path).Ensures P (Emits env P) := by
  obtain ⟨Inv, hFirst, hStep⟩ := h
  exact (hStep p path hFirst).mono (fun _ => id) fun q hNext => ⟨Inv, hNext, hStep⟩

theorem Emits.mono {p : Process} (h : p.Emits env P) (hRows : ∀ row, P row → Q row) :
    p.Emits env Q := by
  obtain ⟨Inv, hFirst, hStep⟩ := h
  exact ⟨Inv, hFirst, fun q path hInv => (hStep q path hInv).mono hRows fun _ => id⟩

theorem ensures_mono {e : Emission Process} (h : e.Ensures P (Emits env P))
    (hRows : ∀ row, P row → Q row) : e.Ensures Q (Emits env Q) :=
  h.mono hRows fun _ hProcess => hProcess.mono hRows

theorem emits_idle : idle.Emits env P := by
  refine ⟨(· = .idle), rfl, ?_⟩
  rintro _ path rfl
  cases path <;> rfl

theorem emits_leaf {job : Job} (h : job.Offers env P) : (leaf job).Emits env P := by
  refine ⟨fun p => ∃ job, p = .leaf job ∧ job.Offers env P, ⟨job, rfl, h⟩, ?_⟩
  rintro _ path ⟨job, rfl, hJob⟩
  simp only [Process.deliver, Emission.ensures_bind, Emission.ensures_pure]
  exact hJob.step.mono (fun _ => id) fun next hNext => ⟨next, rfl, hNext⟩


end Process

namespace Operator

open Process (Emits)

variable {env : Environment} {Q R P : Solution → Prop} {Inv : Operator → Prop}
  {spawn : Solution → Emission Process}

/-- An operator whose first argument hands over rows that fulfil `Q`, and whose branches hand over rows
that fulfil `R`, hands over rows that fulfil `P`. `Inv` holds of all of its states, and it starts its
branches with `spawn`. -/
structure Serves (env : Environment) (spawn : Solution → Emission Process) (Q R P : Solution → Prop)
    (Inv : Operator → Prop) : Prop where
  spawn_eq : ∀ op, Inv op → op.spawn env = spawn
  lead : (Operator.lead env spawn).Carries Q P fun s => Inv s.1 ∧ ∀ child ∈ s.2, child.Emits env R
  branch : ∀ k, (Operator.pipe env k).Carries R P Inv

/-- A branch that is opened is one more process. -/
theorem ensures_openBranch {k : Nat} (hBranch : (pipe env k).Carries R P Inv) {op : Operator}
    (hState : Inv op) {arg : Emission Process} (hArg : arg.Ensures R (Emits env R))
    {opened : List Process} (hOpened : ∀ child ∈ opened, child.Emits env R) :
    (openBranch env k op arg opened).Ensures P fun next =>
      Inv next.1 ∧ ∀ child ∈ next.2, child.Emits env R := by
  simp only [openBranch, Emission.ensures_bind, Emission.ensures_pure]
  refine (hBranch.through hState hArg).mono (fun _ => id) fun next hNext => ⟨hNext.2, ?_⟩
  simp only [List.forall_mem_append, List.forall_mem_singleton]
  exact ⟨hOpened, hNext.1⟩

section

variable {κ : Type} {start : Solution → Emission κ} {op : Operator} (hOpens : op.opens = false)

include hOpens

/-- An operator that starts no arguments does about a row of its first argument what it does about one
of a branch. -/
theorem leadRow_of_not_opens (opened : List κ) (row : Solution) :
    leadRow env start op opened row =
      (fun reply => (reply.1, reply.2, opened)) <$> (op.react env 0).onRow row := by
  cases op <;> first | rfl | simp [opens] at hOpens

theorem leadFinish_of_not_opens (opened : List κ) :
    leadFinish env start op opened =
      (fun next => (next, opened)) <$> (op.react env 0).onFinish := by
  cases op <;> first | rfl | simp [opens] at hOpens

end

/-- An operator that starts no arguments answers its first argument like a branch. -/
theorem lead_carries (hOpens : ∀ op, Inv op → op.opens = false)
    (hBranch : (pipe env 0).Carries Q P Inv) :
    (Operator.lead env spawn).Carries Q P fun s =>
      Inv s.1 ∧ ∀ child ∈ s.2, child.Emits env R where
  onRow := by
    rintro ⟨op, opened⟩ row ⟨hState, hOpened⟩ hRow
    simp only [Operator.lead, leadRow_of_not_opens (hOpens op hState), Emission.ensures_map]
    exact (hBranch.onRow op row hState hRow).mono (fun _ => id) fun _ hNext => ⟨hNext, hOpened⟩
  onFinish := by
    rintro ⟨op, opened⟩ ⟨hState, hOpened⟩
    simp only [Operator.lead, leadFinish_of_not_opens (hOpens op hState), Emission.ensures_map]
    exact (hBranch.onFinish op hState).mono (fun _ => id) fun _ hNext => ⟨hNext, hOpened⟩
  onFail := by
    rintro ⟨op, opened⟩ error ⟨hState, hOpened⟩
    simp only [Operator.lead, Emission.ensures_bind, Emission.ensures_pure]
    exact (hBranch.onFail op error hState).mono (fun _ => id) fun _ hNext => ⟨hNext, hOpened⟩

/-- An operator with a state of one form answers its branches as the pipe on these states does. -/
theorem carries_wrap {σ : Type} {wrap : σ → Operator} {p : Pipe σ} {Fit : σ → Prop} {k : Nat}
    (hReact : ∀ s, (wrap s).react env k = p.react s wrap) (h : p.Carries Q P Fit) :
    (pipe env k).Carries Q P fun op => ∃ s, op = wrap s ∧ Fit s := by
  refine Pipe.carries_ofReaction ?_
  rintro _ ⟨s, rfl, hFit⟩
  rw [hReact s]
  exact h.react (fun s hFit => ⟨s, rfl, hFit⟩) hFit

/-- An operator of one argument does what its pipe does. -/
theorem serves_wrap {σ : Type} {p : Pipe σ} {wrap : σ → Operator} {Fit : σ → Prop}
    (hOpens : ∀ s, (wrap s).opens = false)
    (hReact : ∀ k s, (wrap s).react env k = p.react s wrap) (h : p.Carries Q P Fit) :
    Serves env (fun _ => return .idle) Q Q P fun op => ∃ s, op = wrap s ∧ Fit s := by
  have hBranch : ∀ k, (pipe env k).Carries Q P fun op => ∃ s, op = wrap s ∧ Fit s :=
    fun k => carries_wrap (hReact k) h
  refine ⟨?_, lead_carries ?_ (hBranch 0), hBranch⟩
  · rintro _ ⟨s, rfl, -⟩
    have hOpen := hOpens s
    cases hWrap : wrap s <;> first | rfl | simp [hWrap, Operator.opens] at hOpen
  · rintro _ ⟨s, rfl, -⟩
    exact hOpens s

end Operator

namespace Process

variable {env : Environment} {P Q R : Solution → Prop} {Inv : Operator → Prop}
  {spawn : Solution → Emission Process} {op : Operator}

/-- What an operator does about its arguments, it does all along. -/
theorem emits_node (h : Operator.Serves env spawn Q R P Inv) (hState : Inv op) {first : Process}
    {rest : List Process} (hFirst : first.Emits env Q) (hRest : ∀ child ∈ rest, child.Emits env R) :
    (node op (first :: rest)).Emits env P := by
  refine ⟨fun p => ∃ op first rest, p = .node op (first :: rest) ∧ Inv op ∧ first.Emits env Q ∧
    ∀ child ∈ rest, child.Emits env R, ⟨op, first, rest, rfl, hState, hFirst, hRest⟩, ?_⟩
  rintro _ path ⟨op, first, rest, rfl, hState, hFirst, hRest⟩
  have hStay : ∃ op' first' rest', node op (first :: rest) = .node op' (first' :: rest') ∧ Inv op' ∧
      first'.Emits env Q ∧ ∀ child ∈ rest', child.Emits env R :=
    ⟨op, first, rest, rfl, hState, hFirst, hRest⟩
  match path with
  | [] => exact hStay
  | 0 :: path =>
      rw [deliver_lead, h.spawn_eq op hState]
      simp only [Emission.ensures_bind, Emission.ensures_pure]
      refine (h.lead.through ⟨hState, by simp⟩ (hFirst.deliver path)).mono (fun _ => id) ?_
      rintro ⟨child, op', opened⟩ ⟨hChild, hState', hOpened⟩
      exact ⟨op', child, rest ++ opened, rfl, hState', hChild,
        List.forall_mem_append.mpr ⟨hRest, hOpened⟩⟩
  | (k + 1) :: path =>
      cases hGet : rest[k]? with
      | none =>
          rw [deliver]
          simp only [deliverAt_eq, List.getElem?_cons_succ, hGet, Option.map_none]
          exact hStay
      | some child =>
          have hChildren : (first :: rest)[k + 1]? = some child := by simpa using hGet
          rw [deliver_branch env op hChildren]
          simp only [Emission.ensures_bind, Emission.ensures_pure]
          have hChild := hRest child (List.mem_of_getElem? hGet)
          refine ((h.branch k).through hState (hChild.deliver path)).mono (fun _ => id) ?_
          rintro ⟨child', op'⟩ ⟨hChild', hState'⟩
          refine ⟨op', first, rest.set k child', rfl, hState', hFirst, fun other hMem => ?_⟩
          rcases List.mem_or_eq_of_mem_set hMem with hOld | rfl
          · exact hRest other hOld
          · exact hChild'

/-- An operator above its first argument. -/
theorem ensures_under (h : Operator.Serves env spawn Q R P Inv) (hState : Inv op)
    {arg : Emission Process} (hArg : arg.Ensures Q (Emits env Q)) :
    (under env op spawn arg).Ensures P (Emits env P) := by
  simp only [under, Emission.ensures_bind, Emission.ensures_pure]
  refine (h.lead.through ⟨hState, by simp⟩ hArg).mono (fun _ => id) ?_
  rintro ⟨child, op', opened⟩ ⟨hChild, hState', hOpened⟩
  exact emits_node h hState' hChild hOpened

/-- An operator above its only argument. -/
theorem ensures_underOne {σ : Type} {p : Pipe σ} {wrap : σ → Operator} {Fit : σ → Prop} {s : σ}
    (hOpens : ∀ s, (wrap s).opens = false)
    (hReact : ∀ k s, (wrap s).react env k = p.react s wrap) (h : p.Carries Q P Fit) (hFit : Fit s)
    {arg : Emission Process} (hArg : arg.Ensures Q (Emits env Q)) :
    (underOne env (wrap s) arg).Ensures P (Emits env P) :=
  ensures_under (Operator.serves_wrap hOpens hReact h) ⟨s, rfl, hFit⟩ hArg

end Process

/-- A run hands over such rows only as its process does. -/
theorem Run.emits {env : Environment} {P : Solution → Prop} {start : Emission Process} {steps : Nat}
    {t : Trace} {p : Process} (run : Run env start steps t p)
    (h : start.Ensures P (Process.Emits env P)) :
    (∀ row more, Event.row row more ∈ t → P row) ∧ p.Emits env P := by
  induction run with
  | start hSays => exact h.of_says hSays
  | step prior hLive last ih =>
      obtain ⟨hRows, hProcess⟩ := ih
      obtain ⟨hMore, hNext⟩ := Emission.Ensures.of_says (hProcess.deliver _) last
      refine ⟨fun row more hMem => ?_, hNext⟩
      exact (List.mem_append.mp hMem).elim (hRows row more) (hMore row more)

end SolutionFlow
