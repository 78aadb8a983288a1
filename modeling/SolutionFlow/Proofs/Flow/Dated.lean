import SolutionFlow.Proofs.Expression.QueryTime
import SolutionFlow.Proofs.Flow.Likeness

/-! Queries with the time put in. Conditions that look at nothing but their row and the time of the query come
to the same as conditions that have this time in them. So a query with such conditions goes, whatever time
it takes for its own, like the query in whose conditions this time stands for NOW. -/
namespace SolutionFlow

namespace Emission

variable {α β γ δ : Type} {now : Nat}

/-- Two emissions say and ask the same and go on alike with each reply, if `now` is the time of the query that
the first one takes. What they leave behind is related by `R`. -/
inductive Dated (now : Nat) (R : α → β → Prop) : Emission α → Emission β → Prop where
  | done {v : α} {w : β} (h : R v w) : Dated now R (.done v) (.done w)
  | emit {row : Solution} {next : Bool → Emission α} {next' : Bool → Emission β}
      (h : ∀ more, Dated now R (next more) (next' more)) : Dated now R (.emit row next) (.emit row next')
  | finish {next : Emission α} {next' : Emission β} (h : Dated now R next next') :
      Dated now R (.finish next) (.finish next')
  | fail {error : QueryError} {next : Emission α} {next' : Emission β} (h : Dated now R next next') :
      Dated now R (.fail error next) (.fail error next')
  | probe {next : Bool → Emission α} {next' : Bool → Emission β}
      (h : ∀ gone, Dated now R (next gone) (next' gone)) : Dated now R (.probe next) (.probe next')
  | consult {next : Clock → Emission α} {next' : Clock → Emission β}
      (h : ∀ clock, Dated now R (next clock) (next' clock)) :
      Dated now R (.consult next) (.consult next')
  | timed {ε : Type} {act act' : Timed ε} {next : ε → Emission α} {next' : ε → Emission β}
      (hAct : Timed.Dated now act act') (h : ∀ value, Dated now R (next value) (next' value)) :
      Dated now R ((timed act).bind next) ((timed act').bind next')

namespace Dated

variable {R R' : α → β → Prop} {S : γ → δ → Prop} {e : Emission α} {e' : Emission β}

theorem pure {v : α} {w : β} (h : R v w) :
    Dated now R (Pure.pure v : Emission α) (Pure.pure w : Emission β) := .done h

theorem bind (h : e.Dated now R e') {f : α → Emission γ} {g : β → Emission δ}
    (hNext : ∀ v w, R v w → (f v).Dated now S (g w)) : (e >>= f).Dated now S (e' >>= g) := by
  change (e.bind f).Dated now S (e'.bind g)
  induction h with
  | done h => exact hNext _ _ h
  | emit _ ih => exact .emit ih
  | finish _ ih => exact .finish ih
  | fail _ ih => exact .fail ih
  | probe _ ih => exact .probe ih
  | consult _ ih => exact .consult ih
  | timed hAct _ ih =>
      rw [bind_assoc, bind_assoc]
      exact .timed hAct ih

theorem mono (h : e.Dated now R e') (hValue : ∀ v w, R v w → R' v w) : e.Dated now R' e' := by
  have hAll := h.bind (f := .done) (g := .done) fun v w hRelated => .done (hValue v w hRelated)
  change (e.bind .done).Dated now R' (e'.bind .done) at hAll
  rwa [bind_done, bind_done] at hAll

theorem push (row : Solution) : (Emission.push row).Dated now Eq (Emission.push row) :=
  .emit fun _ => .done rfl

theorem finished : Emission.finished.Dated now Eq Emission.finished := .finish (.done rfl)

theorem report (error : QueryError) : (Emission.report error).Dated now Eq (Emission.report error) :=
  .fail (.done rfl)

theorem isGone : Emission.isGone.Dated now Eq Emission.isGone := .probe fun _ => .done rfl

theorem time : Emission.time.Dated now Eq Emission.time := .consult fun _ => .done rfl

theorem act {act act' : Timed α} (h : Timed.Dated now act act') :
    (Emission.timed act).Dated now Eq (Emission.timed act') := by
  have hAll := Dated.timed (R := Eq) h fun value => .done (rfl : value = value)
  rwa [bind_done, bind_done] at hAll

theorem asking {env : Environment} {act act' : Surroundings → Timed α}
    (h : ∀ around, Timed.Dated now (act around) (act' around)) :
    (Emission.asking env act).Dated now Eq (Emission.asking env act') :=
  isGone.bind fun gone _ hGone => hGone ▸ .act (h (env.surroundingsIf gone))

theorem reportIfHeard (error : QueryError) :
    (Emission.reportIfHeard error).Dated now Eq (Emission.reportIfHeard error) := by
  refine isGone.bind fun _ gone hGone => ?_
  subst hGone
  split
  · exact .pure rfl
  · exact .report error

/-- On its clock the first emission says what the second one can say, if its last clock shows `now`. -/
theorem saysFrom (h : e.Dated now R e') {clock last : Clock} {t : Trace} {v : α}
    (hSays : e.SaysFrom clock t v last) :
    clock.Keeps last ∧ ∃ w, R v w ∧ (last.Shows now → e'.Says t w) := by
  induction h generalizing clock t with
  | done h =>
      obtain ⟨rfl, rfl, rfl⟩ := hSays
      exact ⟨last.keeps_refl, _, h, fun _ => ⟨rfl, rfl⟩⟩
  | emit _ ih =>
      obtain ⟨more, u, rfl, hRest⟩ := hSays
      obtain ⟨hKeeps, w, hRelated, hSame⟩ := ih more hRest
      exact ⟨hKeeps, w, hRelated, fun hShows => ⟨more, u, rfl, hSame hShows⟩⟩
  | finish _ ih =>
      obtain ⟨u, rfl, hRest⟩ := hSays
      obtain ⟨hKeeps, w, hRelated, hSame⟩ := ih hRest
      exact ⟨hKeeps, w, hRelated, fun hShows => ⟨u, rfl, hSame hShows⟩⟩
  | fail _ ih =>
      obtain ⟨u, rfl, hRest⟩ := hSays
      obtain ⟨hKeeps, w, hRelated, hSame⟩ := ih hRest
      exact ⟨hKeeps, w, hRelated, fun hShows => ⟨u, rfl, hSame hShows⟩⟩
  | probe _ ih => exact ih false hSays
  | consult _ ih =>
      obtain ⟨hKeeps, w, hRelated, hSame⟩ := ih clock hSays
      exact ⟨hKeeps, w, hRelated, fun hShows => ⟨clock, hSame hShows⟩⟩
  | @timed ε act act' next next' hAct _ ih =>
      have hRest : (next (act clock).1).SaysFrom (act clock).2 t v last := hSays
      obtain ⟨hFirst, hAlways⟩ := hAct clock
      obtain ⟨hKeeps, w, hRelated, hSame⟩ := ih _ hRest
      refine ⟨hFirst.trans hKeeps, w, hRelated, fun hShows => ⟨clock, ?_⟩⟩
      change (next' (act' clock).1).Says t w
      rw [hAlways (hShows.of_keeps hKeeps) clock]
      exact hSame hShows

end Dated

end Emission

/-- What is done by two operators goes alike with the time put in. -/
structure Reaction.Dated {σ τ : Type} (now : Nat) (R : σ → τ → Prop) (r : Reaction σ) (r' : Reaction τ) :
    Prop where
  onRow : ∀ row, (r.onRow row).Dated now (fun a b => a.1 = b.1 ∧ R a.2 b.2) (r'.onRow row)
  onFinish : r.onFinish.Dated now R r'.onFinish
  onFail : ∀ error, (r.onFail error).Dated now R (r'.onFail error)

namespace Pipe

variable {α β σ τ : Type} {now : Nat} {K : σ → τ → Prop} {p : Pipe σ} {q : Pipe τ}

/-- Two operators answer alike in related states, with the time put in. -/
structure Dated (now : Nat) (K : σ → τ → Prop) (p : Pipe σ) (q : Pipe τ) : Prop where
  onRow : ∀ s t row, K s t →
    (p.onRow s row).Dated now (fun a b => a.1 = b.1 ∧ K a.2 b.2) (q.onRow t row)
  onFinish : ∀ s t, K s t → (p.onFinish s).Dated now K (q.onFinish t)
  onFail : ∀ s t error, K s t → (p.onFail s error).Dated now K (q.onFail t error)

theorem Dated.through (h : p.Dated now K q) {R : α → β → Prop} {e : Emission α} {e' : Emission β}
    (hEmission : e.Dated now R e') {s : σ} {t : τ} (hState : K s t) :
    (p.through s e).Dated now (fun a b => R a.1 b.1 ∧ K a.2 b.2) (q.through t e') := by
  induction hEmission generalizing s t with
  | done hValue => exact .done ⟨hValue, hState⟩
  | emit _ ih =>
      refine (h.onRow s t _ hState).bind ?_
      rintro ⟨more, s'⟩ ⟨_, t'⟩ ⟨rfl, hNext⟩
      exact ih more hNext
  | finish _ ih => exact (h.onFinish s t hState).bind fun _ _ hNext => ih hNext
  | fail _ ih => exact (h.onFail s t _ hState).bind fun _ _ hNext => ih hNext
  | probe _ ih => exact .probe fun gone => ih gone hState
  | consult _ ih => exact .consult fun clock => ih clock hState
  | timed hAct _ ih =>
      rw [through_bind, through_bind]
      exact .timed hAct fun value => ih value hState

theorem Dated.react (h : p.Dated now K q) {R : α → β → Prop} {wrap : σ → α} {wrap' : τ → β}
    (hWrap : ∀ s t, K s t → R (wrap s) (wrap' t)) {s : σ} {t : τ} (hState : K s t) :
    (p.react s wrap).Dated now R (q.react t wrap') where
  onRow row := (h.onRow s t row hState).bind fun _ _ hNext => .pure ⟨hNext.1, hWrap _ _ hNext.2⟩
  onFinish := (h.onFinish s t hState).bind fun _ _ hNext => .pure (hWrap _ _ hNext)
  onFail error := (h.onFail s t error hState).bind fun _ _ hNext => .pure (hWrap _ _ hNext)

theorem dated_ofReaction {react : σ → Reaction σ} {react' : τ → Reaction τ}
    (h : ∀ s t, K s t → (react s).Dated now K (react' t)) :
    (ofReaction react).Dated now K (ofReaction react') where
  onRow s t row hState := (h s t hState).onRow row
  onFinish s t hState := (h s t hState).onFinish
  onFail s t error hState := (h s t hState).onFail error

/-- Operators that hand on ends and failures are known by what they do about rows. -/
theorem dated_ofRow {onRow : σ → Solution → Emission (Bool × σ)}
    {onRow' : τ → Solution → Emission (Bool × τ)}
    (h : ∀ s t row, K s t →
      (onRow s row).Dated now (fun a b => a.1 = b.1 ∧ K a.2 b.2) (onRow' t row)) :
    (ofRow onRow).Dated now K (ofRow onRow') where
  onRow := h
  onFinish _ _ hState := Emission.Dated.finished.bind fun _ _ _ => .pure hState
  onFail _ _ error hState := (Emission.Dated.report error).bind fun _ _ _ => .pure hState

end Pipe

namespace Job

variable {env : Environment} {job : Job} {now : Nat}

/-- If the job is going to make a call, that takes no time. -/
def Timeless (job : Job) : Prop :=
  ∀ call, job.state = .waiting call → ∃ made : Environment → Call, call = fun env => return made env

theorem dated_stop : (pure job.stop : Emission Job).Dated now (fun a b => a = b ∧ a.Timeless)
    (pure job.stop) :=
  .pure ⟨rfl, fun call hState => by simp [stop] at hState⟩

theorem dated_failWith (error : QueryError) :
    (job.failWith error).Dated now (fun a b => a = b ∧ a.Timeless) (job.failWith error) :=
  (Emission.Dated.reportIfHeard error).bind fun _ _ _ => dated_stop

theorem dated_next (delay : Duration) (result : CallResult) :
    (job.next delay (.called result)).Dated now (fun a b => a = b ∧ a.Timeless)
      (job.next delay (.called result)) := by
  refine Emission.Dated.time.bind fun time _ hTime => ?_
  subst hTime
  exact .pure ⟨rfl, fun call hState => by simp at hState⟩

/-- A step of such a job does not depend on the time of the query. -/
theorem Timeless.step (h : job.Timeless) :
    (job.step env).Dated now (fun a b => a = b ∧ a.Timeless) (job.step env) := by
  unfold Job.step
  split
  next => exact .pure ⟨rfl, h⟩
  next call hState =>
    refine Emission.Dated.isGone.bind fun gone _ hGone => ?_
    subst hGone
    split
    · exact dated_stop
    · obtain ⟨made, rfl⟩ := h call hState
      refine (Emission.Dated.act (.pure (made env))).bind fun call _ hCall => ?_
      subst hCall
      exact dated_next _ _
  next error hState => exact dated_failWith error
  next reason hState => exact dated_failWith _
  next items hState =>
    refine Emission.Dated.isGone.bind fun gone _ hGone => ?_
    subst hGone
    split
    · exact dated_stop
    · unfold handOver
      split
      next => exact Emission.Dated.finished.bind fun _ _ _ => dated_stop
      next row rest hTake =>
        refine (Emission.Dated.push row).bind fun more _ hMore => ?_
        subst hMore
        split
        · exact dated_next _ _
        · exact dated_stop
      next error rest hTake => exact dated_failWith error

end Job

namespace Process

variable {env : Environment} {now : Nat} {p q : Process}

/-- Two processes go alike with the time put in: they are related in such a way that the same jobs are live,
and every step goes alike and leaves related processes behind. -/
def Dated (env : Environment) (now : Nat) (p q : Process) : Prop :=
  ∃ R : Process → Process → Prop, R p q ∧ ∀ p q, R p q →
    (∀ path, p.Live path ↔ q.Live path) ∧
      ∀ path, (p.deliver env path).Dated now R (q.deliver env path)

theorem Dated.live_iff (h : Dated env now p q) (path : List Nat) : p.Live path ↔ q.Live path := by
  obtain ⟨R, hFirst, hStep⟩ := h
  exact (hStep p q hFirst).1 path

theorem Dated.finished_iff (h : Dated env now p q) : p.Finished ↔ q.Finished :=
  forall_congr' fun path => not_congr (h.live_iff path)

theorem Dated.deliver (h : Dated env now p q) (path : List Nat) :
    (p.deliver env path).Dated now (Dated env now) (q.deliver env path) := by
  obtain ⟨R, hFirst, hStep⟩ := h
  exact ((hStep p q hFirst).2 path).mono fun p q hNext => ⟨R, hNext, hStep⟩

theorem dated_idle : Dated env now .idle .idle := by
  refine ⟨fun p q => p = .idle ∧ q = .idle, ⟨rfl, rfl⟩, ?_⟩
  rintro _ _ ⟨rfl, rfl⟩
  exact ⟨fun _ => Iff.rfl, fun path => by cases path <;> exact .pure ⟨rfl, rfl⟩⟩

theorem dated_leaf {job : Job} (h : job.Timeless) : Dated env now (.leaf job) (.leaf job) := by
  refine ⟨fun p q => ∃ job : Job, p = .leaf job ∧ q = .leaf job ∧ job.Timeless, ⟨job, rfl, rfl, h⟩, ?_⟩
  rintro _ _ ⟨job, rfl, rfl, h⟩
  refine ⟨fun _ => Iff.rfl, fun path => ?_⟩
  have hStep : (job.step env).Dated now _ (job.step env) := h.step
  cases path <;> exact hStep.bind fun _ _ hNext => .pure ⟨_, rfl, congrArg _ hNext.1.symm, hNext.2⟩

end Process

section

variable {env : Environment} {now : Nat}

theorem Completion.dated_forward (c : Completion) (row : Solution) :
    (c.forward row).Dated now Eq (c.forward row) := by
  unfold forward
  split
  · exact .pure rfl
  · exact (Emission.Dated.push row).bind fun more _ hMore => hMore ▸ .pure rfl

theorem Completion.dated_finish (c : Completion) : c.finish.Dated now Eq c.finish := by
  unfold finish
  split
  · exact Emission.Dated.finished.bind fun _ _ _ => .pure rfl
  · exact .pure rfl

theorem Joining.dated_isWanted (c : Completion) : (isWanted c).Dated now Eq (isWanted c) := by
  unfold isWanted
  split
  · exact .pure rfl
  · exact Emission.Dated.isGone.bind fun gone _ hGone => hGone ▸ .pure rfl

/-- The condition of one filter is that of the other with the time put in. -/
def Filtering.Dated (now : Nat) (s t : Filtering) : Prop :=
  s.condition.ExistsFree ∧ t = { s with condition := s.condition.asOf now }

theorem Filtering.dated_pipe : (pipe env).Dated now (Filtering.Dated now) (pipe env) := by
  refine Pipe.dated_ofRow ?_
  rintro s _ row ⟨hFree, rfl⟩
  refine (Emission.Dated.asking fun around => Expr.dated_admits hFree).bind fun outcome _ hOutcome => ?_
  subst hOutcome
  rcases outcome with error | admitted
  · exact (Emission.Dated.report error).bind fun _ _ _ => .pure ⟨rfl, hFree, rfl⟩
  · cases admitted with
    | true =>
        refine (Emission.Dated.push row).bind fun more _ hMore => ?_
        exact hMore ▸ .pure ⟨rfl, hFree, rfl⟩
    | false => exact .pure ⟨rfl, hFree, rfl⟩

theorem Correcting.dated_pipe : pipe.Dated now Eq pipe := by
  refine Pipe.dated_ofRow ?_
  rintro s _ row rfl
  split
  · exact (Emission.Dated.push _).bind fun more _ hMore => hMore ▸ .pure ⟨rfl, rfl⟩
  · exact .pure ⟨rfl, rfl⟩

theorem Completion.dated_pipe : pipe.Dated now Eq pipe where
  onRow s _ row h := by
    subst h
    exact (s.dated_forward row).mono fun _ _ hSame => hSame ▸ ⟨rfl, rfl⟩
  onFinish s _ h := h ▸ s.dated_finish
  onFail s _ error h := h ▸ (Emission.Dated.report error).bind fun _ _ _ => .pure rfl

/-- Two joins are the same, but for the right arguments that they start, and these go alike with the time put
in. -/
def Joining.Dated (env : Environment) (now : Nat) (s t : Joining) : Prop :=
  ∃ right, t = { s with right := right } ∧ ∀ row,
    (s.right.start env row s.scope).Dated now (Process.Dated env now) (right.start env row s.scope)

theorem Joining.dated_branchPipe : branchPipe.Dated now (Joining.Dated env now) branchPipe where
  onRow := by
    rintro s _ row ⟨right, rfl, hSpawn⟩
    refine (s.completion.dated_forward row).bind fun reply _ hReply => ?_
    exact hReply ▸ .pure ⟨rfl, right, rfl, hSpawn⟩
  onFinish := by
    rintro s _ ⟨right, rfl, hSpawn⟩
    refine s.completion.dated_finish.bind fun completion _ hCompletion => ?_
    exact hCompletion ▸ .pure ⟨right, rfl, hSpawn⟩
  onFail := by
    rintro s _ error ⟨right, rfl, hSpawn⟩
    exact (Emission.Dated.report error).bind fun _ _ _ => .pure ⟨right, rfl, hSpawn⟩

/-- So are two left joins, and the condition of one is that of the other with the time put in. -/
def LeftJoining.Dated (env : Environment) (now : Nat) (s t : LeftJoining) : Prop :=
  (∀ x ∈ s.condition, x.ExistsFree) ∧
    ∃ right, t = { s with right := right, condition := s.condition.map (Expr.asOf now) } ∧ ∀ row,
      (s.right.start env row s.scope).Dated now (Process.Dated env now) (right.start env row s.scope)

theorem LeftJoining.dated_admits {s t : LeftJoining} (h : LeftJoining.Dated env now s t)
    (around : Surroundings) (row : Solution) :
    Timed.Dated now (s.admits around row).run (t.admits around row).run := by
  obtain ⟨hFree, right, rfl, -⟩ := h
  unfold admits
  cases hCondition : s.condition with
  | none => exact .value true
  | some x => exact Expr.dated_admits (hFree x hCondition)

theorem LeftJoining.dated_branchPipe (k : Nat) :
    (branchPipe env k).Dated now (LeftJoining.Dated env now) (branchPipe env k) where
  onRow := by
    intro s t row h
    have hJudged : (Emission.asking env fun around => (s.admits around row).run).Dated now Eq
        (Emission.asking env fun around => (t.admits around row).run) :=
      .asking fun around => dated_admits h around row
    obtain ⟨hFree, right, rfl, hSpawn⟩ := h
    change (onBranchRow env k s row).Dated now _ (onBranchRow env k _ row)
    simp only [onBranchRow]
    split
    · exact .pure ⟨rfl, hFree, right, rfl, hSpawn⟩
    · refine hJudged.bind fun outcome _ hOutcome => ?_
      subst hOutcome
      rcases outcome with error | admitted
      · exact (Emission.Dated.report error).bind fun _ _ _ => .pure ⟨rfl, hFree, right, rfl, hSpawn⟩
      · cases admitted with
        | true =>
            refine (s.completion.dated_forward row).bind fun reply _ hReply => ?_
            exact hReply ▸ .pure ⟨rfl, hFree, right, rfl, hSpawn⟩
        | false => exact .pure ⟨rfl, hFree, right, rfl, hSpawn⟩
  onFinish := by
    rintro s _ ⟨hFree, right, rfl, hSpawn⟩
    change (onBranchFinish k s).Dated now _ (onBranchFinish k _)
    simp only [onBranchFinish]
    split
    next left hGet =>
      refine (s.completion.dated_forward left).bind fun reply _ hReply => ?_
      subst hReply
      refine reply.2.dated_finish.bind fun completion _ hCompletion => ?_
      exact hCompletion ▸ .pure ⟨hFree, right, rfl, hSpawn⟩
    next =>
      refine s.completion.dated_finish.bind fun completion _ hCompletion => ?_
      exact hCompletion ▸ .pure ⟨hFree, right, rfl, hSpawn⟩
  onFail := by
    rintro s _ error ⟨hFree, right, rfl, hSpawn⟩
    exact (Emission.Dated.report error).bind fun _ _ _ => .pure ⟨hFree, right, rfl, hSpawn⟩

end

namespace Operator

variable {env : Environment} {now : Nat} {op op' : Operator}

/-- Two operators answer alike what their arguments emit, and start alike arguments, with the time put in. -/
inductive Dated (env : Environment) (now : Nat) : Operator → Operator → Prop where
  | filter {s t : Filtering} (h : s.Dated now t) : Dated env now (.filter s) (.filter t)
  | correct (s : Correcting) : Dated env now (.correct s) (.correct s)
  | join {s t : Joining} (h : s.Dated env now t) : Dated env now (.join s) (.join t)
  | leftJoin {s t : LeftJoining} (h : s.Dated env now t) : Dated env now (.leftJoin s) (.leftJoin t)
  | union (c : Completion) : Dated env now (.union c) (.union c)

theorem Dated.react (h : Dated env now op op') (k : Nat) :
    (op.react env k).Dated now (Dated env now) (op'.react env k) := by
  cases h with
  | filter h => exact Filtering.dated_pipe.react (fun _ _ => .filter) h
  | correct s => exact Correcting.dated_pipe.react (fun _ _ hSame => hSame ▸ .correct _) rfl
  | join h => exact Joining.dated_branchPipe.react (fun _ _ => .join) h
  | leftJoin h => exact (LeftJoining.dated_branchPipe k).react (fun _ _ => .leftJoin) h
  | union c => exact Completion.dated_pipe.react (fun _ _ hSame => hSame ▸ .union _) rfl

theorem dated_pipe (env : Environment) (now k : Nat) :
    (pipe env k).Dated now (Dated env now) (pipe env k) :=
  Pipe.dated_ofReaction fun _ _ h => h.react k

theorem Dated.spawn (h : Dated env now op op') (seed : Solution) :
    (op.spawn env seed).Dated now (Process.Dated env now) (op'.spawn env seed) := by
  cases h with
  | filter h => exact .pure Process.dated_idle
  | correct s => exact .pure Process.dated_idle
  | union c => exact .pure Process.dated_idle
  | join h =>
      obtain ⟨right, rfl, hSpawn⟩ := h
      exact hSpawn seed
  | leftJoin h =>
      obtain ⟨-, right, rfl, hSpawn⟩ := h
      exact hSpawn seed

/-- An operator and the branches that it has opened go like another one with its branches. -/
def DatedWith (env : Environment) (now : Nat) (s t : Operator × List Process) : Prop :=
  Dated env now s.1 t.1 ∧ List.Forall₂ (Process.Dated env now) s.2 t.2

theorem dated_openBranch (h : Dated env now op op') (k : Nat) {branch branch' : Emission Process}
    (hBranch : branch.Dated now (Process.Dated env now) branch') {opened opened' : List Process}
    (hOpened : List.Forall₂ (Process.Dated env now) opened opened') :
    (openBranch env k op branch opened).Dated now (DatedWith env now)
      (openBranch env k op' branch' opened') :=
  ((dated_pipe env now k).through hBranch h).bind fun _ _ hNext =>
    .pure ⟨hNext.2, List.rel_append hOpened (.cons hNext.1 .nil)⟩

section

variable {spawn spawn' : Solution → Emission Process}
  (hSpawn : ∀ seed, (spawn seed).Dated now (Process.Dated env now) (spawn' seed))
  {opened opened' : List Process} (hOpened : List.Forall₂ (Process.Dated env now) opened opened')

include hOpened

/-- Operators that start no arguments take the first argument for a branch. -/
theorem dated_leadRow_of_not_opens (h : Dated env now op op') (hOp : op.opens = false)
    (hOp' : op'.opens = false) (row : Solution) :
    (leadRow env spawn op opened row).Dated now (fun a b => a.1 = b.1 ∧ DatedWith env now a.2 b.2)
      (leadRow env spawn' op' opened' row) := by
  rw [leadRow_of_not_opens hOp, leadRow_of_not_opens hOp', ← bind_pure_comp, ← bind_pure_comp]
  exact ((h.react 0).onRow row).bind fun _ _ hNext => .pure ⟨hNext.1, hNext.2, hOpened⟩

theorem dated_leadFinish (h : Dated env now op op') :
    (leadFinish env spawn op opened).Dated now (DatedWith env now)
      (leadFinish env spawn' op' opened') := by
  cases h with
  | leftJoin h =>
      obtain ⟨hFree, right, rfl, hRight⟩ := h
      rename_i s
      refine s.completion.dated_finish.bind fun completion _ hCompletion => ?_
      exact hCompletion ▸ .pure ⟨.leftJoin ⟨hFree, right, rfl, hRight⟩, hOpened⟩
  | filter h =>
      exact ((Dated.filter h).react 0).onFinish.bind fun _ _ hNext => .pure ⟨hNext, hOpened⟩
  | correct s =>
      exact ((Dated.correct s).react 0).onFinish.bind fun _ _ hNext => .pure ⟨hNext, hOpened⟩
  | join h => exact ((Dated.join h).react 0).onFinish.bind fun _ _ hNext => .pure ⟨hNext, hOpened⟩
  | union c => exact ((Dated.union c).react 0).onFinish.bind fun _ _ hNext => .pure ⟨hNext, hOpened⟩

include hSpawn

theorem dated_leadRow (h : Dated env now op op') (row : Solution) :
    (leadRow env spawn op opened row).Dated now (fun a b => a.1 = b.1 ∧ DatedWith env now a.2 b.2)
      (leadRow env spawn' op' opened' row) := by
  cases h with
  | filter h => exact dated_leadRow_of_not_opens hOpened (.filter h) rfl rfl row
  | correct s => exact dated_leadRow_of_not_opens hOpened (.correct s) rfl rfl row
  | union c => exact dated_leadRow_of_not_opens hOpened (.union c) rfl rfl row
  | join h =>
      obtain ⟨right, rfl, hRight⟩ := h
      rename_i s
      simp only [leadRow, Joining.openBranch, bind_assoc]
      refine (Joining.dated_isWanted s.completion).bind fun wanted _ hWanted => ?_
      subst hWanted
      cases wanted with
      | true =>
          refine (dated_openBranch ?_ 0 (hSpawn row) hOpened).bind fun _ _ hNext => .pure ⟨rfl, hNext⟩
          exact .join ⟨right, rfl, hRight⟩
      | false => exact .pure ⟨rfl, .join ⟨right, rfl, hRight⟩, hOpened⟩
  | leftJoin h =>
      obtain ⟨hFree, right, rfl, hRight⟩ := h
      rename_i s
      simp only [leadRow, LeftJoining.openBranch, bind_assoc]
      refine (Joining.dated_isWanted s.completion).bind fun wanted _ hWanted => ?_
      subst hWanted
      cases wanted with
      | true =>
          refine (dated_openBranch ?_ _ (hSpawn row) hOpened).bind fun _ _ hNext => .pure ⟨rfl, hNext⟩
          exact .leftJoin ⟨hFree, right, rfl, hRight⟩
      | false => exact .pure ⟨rfl, .leftJoin ⟨hFree, right, rfl, hRight⟩, hOpened⟩

end

theorem dated_lead {spawn spawn' : Solution → Emission Process}
    (hSpawn : ∀ seed, (spawn seed).Dated now (Process.Dated env now) (spawn' seed)) :
    (lead env spawn).Dated now (DatedWith env now) (lead env spawn') where
  onRow _ _ row h := dated_leadRow hSpawn h.2 h.1 row
  onFinish _ _ h := dated_leadFinish h.2 h.1
  onFail _ _ error h := ((h.1.react 0).onFail error).bind fun _ _ hNext => .pure ⟨hNext, h.2⟩

end Operator

namespace Process

variable {env : Environment} {now : Nat} {op op' : Operator} {children children' : List Process}

/-- In the same place of related lists of processes the same jobs are live. -/
theorem live_node_iff (h : List.Forall₂ (Dated env now) children children') (path : List Nat) :
    (Process.node op children).Live path ↔ (Process.node op' children').Live path := by
  cases path with
  | nil => exact Iff.rfl
  | cons k path =>
      simp only [Live]
      obtain ⟨hNone, hNone'⟩ | ⟨child, child', hChild, hChild', hSame, -⟩ := forall₂_getElem? h k
      · simp [hNone, hNone']
      · simpa [hChild, hChild'] using hSame.live_iff path

/-- An operator above processes goes like another one above processes, if all of them do. -/
theorem dated_node (h : op.Dated env now op') (hChildren : List.Forall₂ (Dated env now) children children') :
    Dated env now (.node op children) (.node op' children') := by
  refine ⟨fun p q => ∃ op op' children children', p = .node op children ∧ q = .node op' children' ∧
    op.Dated env now op' ∧ List.Forall₂ (Dated env now) children children',
    ⟨op, op', children, children', rfl, rfl, h, hChildren⟩, ?_⟩
  rintro _ _ ⟨op, op', children, children', rfl, rfl, h, hChildren⟩
  refine ⟨live_node_iff hChildren, fun path => ?_⟩
  match path with
  | [] => exact .pure ⟨op, op', children, children', rfl, rfl, h, hChildren⟩
  | k :: path =>
      obtain ⟨hNone, hNone'⟩ | ⟨child, child', hChild, hChild', hSame, hSet⟩ :=
        forall₂_getElem? hChildren k
      · simp only [deliver, deliverAt_eq, hNone, hNone', Option.map_none]
        exact .pure ⟨op, op', children, children', rfl, rfl, h, hChildren⟩
      · simp only [deliver, deliverAt_eq, hChild, hChild', Option.map_some]
        cases k with
        | zero =>
            refine ((Operator.dated_lead h.spawn).through (hSame.deliver path) ⟨h, .nil⟩).bind
              fun _ _ hNext => .pure ?_
            exact ⟨_, _, _, _, rfl, rfl, hNext.2.1, List.rel_append (hSet _ _ hNext.1) hNext.2.2⟩
        | succ k =>
            refine ((Operator.dated_pipe env now k).through (hSame.deliver path) h).bind
              fun _ _ hNext => .pure ?_
            exact ⟨_, _, _, _, rfl, rfl, hNext.2, hSet _ _ hNext.1⟩

theorem dated_under (h : op.Dated env now op') {arg arg' : Emission Process}
    {spawn spawn' : Solution → Emission Process}
    (hSpawn : ∀ seed, (spawn seed).Dated now (Dated env now) (spawn' seed))
    (hArg : arg.Dated now (Dated env now) arg') :
    (under env op spawn arg).Dated now (Dated env now) (under env op' spawn' arg') :=
  ((Operator.dated_lead hSpawn).through hArg ⟨h, .nil⟩).bind fun _ _ hNext =>
    .pure (dated_node hNext.2.1 (.cons hNext.1 hNext.2.2))

theorem dated_underOne (h : op.Dated env now op') {arg arg' : Emission Process}
    (hArg : arg.Dated now (Dated env now) arg') :
    (underOne env op arg).Dated now (Dated env now) (underOne env op' arg') :=
  dated_under h (fun _ => .pure dated_idle) hArg

theorem dated_underUnion {left left' right right' : Emission Process}
    (hLeft : left.Dated now (Dated env now) left') (hRight : right.Dated now (Dated env now) right') :
    (underUnion env left right).Dated now (Dated env now) (underUnion env left' right') := by
  refine ((Operator.dated_pipe env now 0).through hLeft (.union _)).bind fun _ _ hFirst => ?_
  refine ((Operator.dated_pipe env now 0).through hRight hFirst.2).bind fun _ _ hSecond => ?_
  exact .pure (dated_node hSecond.2 (.cons hFirst.1 (.cons hSecond.1 .nil)))

theorem dated_calling (kind : String) (made : Environment → Call) :
    (calling kind fun env => return made env).Dated now (Dated env now)
      (calling kind fun env => return made env) := by
  refine Emission.Dated.time.bind fun time _ hTime => ?_
  subst hTime
  refine .pure (dated_leaf fun call hState => ⟨made, ?_⟩)
  exact (JobState.waiting.inj hState).symm

end Process

/-- A run keeps the time of the query, and what the query does in it, one that goes like it with the time put in
does too, if the time is that of the query in the end. -/
theorem TimedRun.dated {env : Environment} {now steps : Nat} {start start' : Emission Process}
    {first last : Clock} {t : Trace} {p : Process}
    (hStart : start.Dated now (Process.Dated env now) start')
    (run : TimedRun env start first steps t p last) :
    first.Keeps last ∧ ∃ q, p.Dated env now q ∧ (last.Shows now → Run env start' steps t q) := by
  induction run with
  | start heard =>
      obtain ⟨hKeeps, q, hSame, hSays⟩ := hStart.saysFrom heard
      exact ⟨hKeeps, q, hSame, fun hShows => .start (hSays hShows)⟩
  | step prior hLive hSame heard ih =>
      rename_i path clock later last
      obtain ⟨hBefore, q, hDated, hRun⟩ := ih
      obtain ⟨hKeeps, q', hNext, hSays⟩ := (hDated.deliver path).saysFrom heard
      have hStill : clock.Keeps last := fun time hTime => hKeeps time (hSame.trans hTime)
      refine ⟨hBefore.trans hStill, q', hNext, fun hShows => ?_⟩
      exact (hRun (hShows.of_keeps hStill)).step ((hDated.live_iff path).mp hLive) (hSays hShows)

end SolutionFlow
