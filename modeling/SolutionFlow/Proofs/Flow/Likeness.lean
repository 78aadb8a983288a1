import Mathlib.Data.List.Forall2
import SolutionFlow.Evaluation
import SolutionFlow.Proofs.Flow.Alike

/-! Processes that cannot be told apart. Their jobs are ready at the same times, and the steps of these go
alike and leave such processes behind. Operators that answer alike and start alike arguments are above
such processes, and whoever reads rows from them reads the same. -/
namespace SolutionFlow

/-- In the same place of two lists of related items there are related items, and others may take their
place. -/
theorem forall₂_getElem? {α β : Type} {R : α → β → Prop} {items : List α} {others : List β}
    (h : List.Forall₂ R items others) (k : Nat) :
    (items[k]? = none ∧ others[k]? = none) ∨
    ∃ item other, items[k]? = some item ∧ others[k]? = some other ∧ R item other ∧
      ∀ p q, R p q → List.Forall₂ R (items.set k p) (others.set k q) := by
  induction h generalizing k with
  | nil => exact .inl ⟨rfl, rfl⟩
  | @cons item other _ _ hFirst hRest ih =>
      cases k with
      | zero => exact .inr ⟨item, other, rfl, rfl, hFirst, fun p q hNew => .cons hNew hRest⟩
      | succ k =>
          obtain hNone | ⟨p, q, hP, hQ, hSame, hSet⟩ := ih k
          · exact .inl hNone
          · exact .inr ⟨p, q, hP, hQ, hSame, fun p q hNew => .cons hFirst (hSet p q hNew)⟩

/-- Two jobs are the same, or are going to make calls that come to the same. -/
def Job.Alike (env : Environment) (job job' : Job) : Prop :=
  job = job' ∨ ∃ kind readyAt call call', job = ⟨kind, readyAt, .waiting call⟩ ∧
    job' = ⟨kind, readyAt, .waiting call'⟩ ∧ call env = call' env

theorem Job.Alike.step_eq {env : Environment} {job job' : Job} (h : Job.Alike env job job') :
    job.step env = job'.step env := by
  obtain rfl | ⟨kind, readyAt, call, call', rfl, rfl, hCall⟩ := h
  · rfl
  · simp only [Job.step, Job.stop, Job.next, hCall]

theorem Job.Alike.isEnded_eq {env : Environment} {job job' : Job} (h : Job.Alike env job job') :
    job.isEnded = job'.isEnded ∧ job.readyAt = job'.readyAt := by
  obtain rfl | ⟨kind, readyAt, call, call', rfl, rfl, -⟩ := h <;> exact ⟨rfl, rfl⟩

namespace Process

variable {env : Environment} {p q : Process}

/-- Two processes cannot be told apart: they are related in such a way that the next step is due at the
same time and place, and every step goes alike and leaves related processes behind. -/
def Alike (env : Environment) (p q : Process) : Prop :=
  ∃ R : Process → Process → Prop, R p q ∧ ∀ p q, R p q →
    p.earliest = q.earliest ∧ ∀ path, (p.deliver env path).Matches R (q.deliver env path)

theorem Alike.earliest_eq (h : Alike env p q) : p.earliest = q.earliest := by
  obtain ⟨R, hFirst, hStep⟩ := h
  exact (hStep p q hFirst).1

theorem Alike.deliver (h : Alike env p q) (path : List Nat) :
    (p.deliver env path).Matches (Alike env) (q.deliver env path) := by
  obtain ⟨R, hFirst, hStep⟩ := h
  exact ((hStep p q hFirst).2 path).mono fun p q hNext => ⟨R, hNext, hStep⟩

theorem alike_refl (env : Environment) (p : Process) : Alike env p p := by
  refine ⟨Eq, rfl, ?_⟩
  rintro p _ rfl
  exact ⟨rfl, fun path => .refl (fun _ => rfl) _⟩

theorem alike_leaf {job job' : Job} (h : Job.Alike env job job') : Alike env (.leaf job) (.leaf job') := by
  refine ⟨fun p q => ∃ job job', p = .leaf job ∧ q = .leaf job' ∧ Job.Alike env job job',
    ⟨job, job', rfl, rfl, h⟩, ?_⟩
  rintro _ _ ⟨job, job', rfl, rfl, h⟩
  refine ⟨?_, fun path => ?_⟩
  · simp only [earliest, h.isEnded_eq]
  · simp only [Process.deliver, h.step_eq]
    exact .bind_same _ fun next => .pure ⟨next, next, rfl, rfl, .inl rfl⟩

theorem earliestOf_eq {children children' : List Process}
    (h : List.Forall₂ (Alike env) children children') (first : Nat) :
    earliestOf first children = earliestOf first children' := by
  induction h generalizing first with
  | nil => rfl
  | cons hChild _ ih => simp only [earliestOf, hChild.earliest_eq, ih]

end Process

/-- What is done by two operators goes alike and leaves related states behind. -/
structure Reaction.Alike {σ τ : Type} (R : σ → τ → Prop) (r : Reaction σ) (r' : Reaction τ) :
    Prop where
  onRow : ∀ row, (r.onRow row).Matches (fun a b => a.1 = b.1 ∧ R a.2 b.2) (r'.onRow row)
  onFinish : r.onFinish.Matches R r'.onFinish
  onFail : ∀ error, (r.onFail error).Matches R (r'.onFail error)

namespace Pipe

variable {σ τ : Type} {p : Pipe σ} {q : Pipe τ} {K : σ → τ → Prop}

/-- Two operators answer alike, with no failure pardoned. -/
abbrev Matches (K : σ → τ → Prop) (p : Pipe σ) (q : Pipe τ) : Prop := Alike (fun _ => False) K p q

theorem Matches.react (h : p.Matches K q) {α β : Type} {R : α → β → Prop} {wrap : σ → α} {wrap' : τ → β}
    (hWrap : ∀ s t, K s t → R (wrap s) (wrap' t)) {s : σ} {t : τ} (hState : K s t) :
    (p.react s wrap).Alike R (q.react t wrap') where
  onRow row := (h.onRow s t row hState).bind fun _ _ hNext => .pure ⟨hNext.1, hWrap _ _ hNext.2⟩
  onFinish := (h.onFinish s t hState).bind fun _ _ hNext => .pure (hWrap _ _ hNext)
  onFail error := (h.onFail s t error hState).bind fun _ _ hNext => .pure (hWrap _ _ hNext)

theorem matches_ofReaction {react : σ → Reaction σ} {react' : τ → Reaction τ}
    (h : ∀ s t, K s t → (react s).Alike K (react' t)) :
    (ofReaction react).Matches K (ofReaction react') where
  onRow s t row hState := (h s t hState).onRow row
  onFinish s t hState := (h s t hState).onFinish
  onFail s t error hState := (h s t hState).onFail error
  pardon _ _ := False.elim

end Pipe

section

variable {env : Environment}

/-- The condition of one filter lets through what that of the other does. -/
def Filtering.Alike (s t : Filtering) : Prop :=
  ∀ around row, s.condition.admits around (s.view row) = t.condition.admits around (t.view row)

theorem Filtering.pipe_matches : (Filtering.pipe env).Matches Filtering.Alike (Filtering.pipe env) where
  onRow := by
    intro s t row h
    simp only [Filtering.pipe, Pipe.ofRow, h _ row]
    refine .bind_same _ fun outcome => ?_
    rcases outcome with error | admitted
    · exact .bind_same _ fun _ => .pure ⟨rfl, h⟩
    · cases admitted with
      | true => exact .bind_same _ fun more => .pure ⟨rfl, h⟩
      | false => exact .pure ⟨rfl, h⟩
  onFinish _ _ h := .bind_same _ fun _ => .pure h
  onFail _ _ _ h := .bind_same _ fun _ => .pure h
  pardon _ _ := False.elim

/-- Two joins are the same, but for the place in which they evaluate the right argument; and that does
not matter. -/
def Joining.Alike (env : Environment) (s t : Joining) : Prop :=
  ∃ scope, t = { s with scope := scope } ∧
    ∀ row, (s.right.start env row s.scope).Matches (Process.Alike env) (s.right.start env row scope)

def LeftJoining.Alike (env : Environment) (s t : LeftJoining) : Prop :=
  ∃ scope, t = { s with scope := scope } ∧
    ∀ row, (s.right.start env row s.scope).Matches (Process.Alike env) (s.right.start env row scope)

def SetFilter.Alike (env : Environment) (s t : SetFilter) : Prop :=
  ∃ scope, t = { s with scope := scope } ∧
    ∀ seed, (s.left.start env seed s.scope).Matches (Process.Alike env) (s.left.start env seed scope)

theorem Joining.branchPipe_matches : branchPipe.Matches (Joining.Alike env) branchPipe where
  onRow := by
    rintro s _ row ⟨scope, rfl, hSpawn⟩
    exact .bind_same (s.completion.forward row) fun reply => .pure ⟨rfl, scope, rfl, hSpawn⟩
  onFinish := by
    rintro s _ ⟨scope, rfl, hSpawn⟩
    exact .bind_same s.completion.finish fun completion => .pure ⟨scope, rfl, hSpawn⟩
  onFail := by
    rintro s _ error ⟨scope, rfl, hSpawn⟩
    exact .bind_same _ fun _ => .pure ⟨scope, rfl, hSpawn⟩
  pardon _ _ := False.elim

theorem LeftJoining.branchPipe_matches (k : Nat) :
    (branchPipe env k).Matches (LeftJoining.Alike env) (branchPipe env k) where
  onRow := by
    rintro s _ row ⟨scope, rfl, hSpawn⟩
    change (onBranchRow env k s row).Matches _ (onBranchRow env k { s with scope := scope } row)
    simp only [onBranchRow]
    split
    · exact .pure ⟨rfl, scope, rfl, hSpawn⟩
    · refine .bind_same _ fun outcome => ?_
      rcases outcome with error | admitted
      · exact .bind_same _ fun _ => .pure ⟨rfl, scope, rfl, hSpawn⟩
      · cases admitted with
        | true =>
            exact .bind_same (s.completion.forward row) fun reply => .pure ⟨rfl, scope, rfl, hSpawn⟩
        | false => exact .pure ⟨rfl, scope, rfl, hSpawn⟩
  onFinish := by
    rintro s _ ⟨scope, rfl, hSpawn⟩
    change (onBranchFinish k s).Matches _ (onBranchFinish k { s with scope := scope })
    simp only [onBranchFinish]
    split
    · exact .bind_same _ fun reply => .bind_same _ fun completion => .pure ⟨scope, rfl, hSpawn⟩
    · exact .bind_same _ fun completion => .pure ⟨scope, rfl, hSpawn⟩
  onFail := by
    rintro s _ error ⟨scope, rfl, hSpawn⟩
    exact .bind_same _ fun _ => .pure ⟨scope, rfl, hSpawn⟩
  pardon _ _ := False.elim

theorem SetFilter.failWith_matches {s : SetFilter} {scope : Scope}
    (hSpawn : ∀ seed, (s.left.start env seed s.scope).Matches (Process.Alike env)
      (s.left.start env seed scope)) (error : QueryError) :
    (s.failWith error).Matches (SetFilter.Alike env)
      (SetFilter.failWith { s with scope := scope } error) :=
  .bind_same _ fun _ => .pure ⟨scope, rfl, hSpawn⟩

theorem SetFilter.refuse_matches {s : SetFilter} {scope : Scope}
    (hSpawn : ∀ seed, (s.left.start env seed s.scope).Matches (Process.Alike env)
      (s.left.start env seed scope)) (e : SpillError) :
    (s.refuse e).Matches (fun a b => a.1 = b.1 ∧ SetFilter.Alike env a.2 b.2)
      (SetFilter.refuse { s with scope := scope } e) := by
  unfold SetFilter.refuse
  split
  · exact .pure ⟨rfl, scope, rfl, hSpawn⟩
  · exact (failWith_matches hSpawn _).bind fun _ _ hNext => .pure ⟨rfl, hNext⟩

theorem SetFilter.leftPipe_matches : leftPipe.Matches (SetFilter.Alike env) leftPipe where
  onRow := by
    rintro s _ row ⟨scope, rfl, hSpawn⟩
    change (onLeftRow s row).Matches _ (onLeftRow { s with scope := scope } row)
    simp only [onLeftRow]
    split
    · exact .bind_same _ fun more => .pure ⟨rfl, scope, rfl, hSpawn⟩
    · exact .pure ⟨rfl, scope, rfl, hSpawn⟩
    · exact refuse_matches hSpawn _
  onFinish := by
    rintro s _ ⟨scope, rfl, hSpawn⟩
    exact .bind_same _ fun _ => .pure ⟨scope, rfl, hSpawn⟩
  onFail := by
    rintro s _ error ⟨scope, rfl, hSpawn⟩
    exact failWith_matches hSpawn error
  pardon _ _ := False.elim

theorem SetFilter.onRightRow_matches {s t : SetFilter} (h : SetFilter.Alike env s t) (row : Solution) :
    (s.onRightRow row).Matches (fun a b => a.1 = b.1 ∧ SetFilter.Alike env a.2 b.2)
      (t.onRightRow row) := by
  obtain ⟨scope, rfl, hSpawn⟩ := h
  simp only [onRightRow]
  split
  · exact .pure ⟨rfl, scope, rfl, hSpawn⟩
  · exact refuse_matches (s := { s with right := (s.right.add row).2 }) hSpawn _

end

namespace Operator

variable {env : Environment} {op op' : Operator}

/-- Two operators answer alike what their arguments emit, and start alike arguments. -/
inductive Alike (env : Environment) : Operator → Operator → Prop where
  | refl (op : Operator) : Alike env op op
  | filter {s t : Filtering} (h : s.Alike t) : Alike env (.filter s) (.filter t)
  | join {s t : Joining} (h : s.Alike env t) : Alike env (.join s) (.join t)
  | leftJoin {s t : LeftJoining} (h : s.Alike env t) : Alike env (.leftJoin s) (.leftJoin t)
  | setFilter {s t : SetFilter} (h : s.Alike env t) : Alike env (.setFilter s) (.setFilter t)

theorem alike_of_eq (h : op = op') : Alike env op op' := h ▸ .refl op

/-- Only joins, intersections and differences start arguments. -/
theorem Alike.opening (h : Alike env op op') :
    (op.opens = false ∧ op'.opens = false) ∨
    (∃ s t, op = .join s ∧ op' = .join t ∧ s.Alike env t) ∨
    (∃ s t, op = .leftJoin s ∧ op' = .leftJoin t ∧ s.Alike env t) ∨
    (∃ s t, op = .setFilter s ∧ op' = .setFilter t ∧ s.Alike env t) := by
  have hRefl (start : Solution → Emission Process) :
      ∀ seed, (start seed).Matches (Process.Alike env) (start seed) :=
    fun seed => .refl (Process.alike_refl env) _
  cases h with
  | filter h => exact .inl ⟨rfl, rfl⟩
  | join h => exact .inr (.inl ⟨_, _, rfl, rfl, h⟩)
  | leftJoin h => exact .inr (.inr (.inl ⟨_, _, rfl, rfl, h⟩))
  | setFilter h => exact .inr (.inr (.inr ⟨_, _, rfl, rfl, h⟩))
  | refl =>
      cases op with
      | join s => exact .inr (.inl ⟨s, s, rfl, rfl, s.scope, rfl, hRefl _⟩)
      | leftJoin s => exact .inr (.inr (.inl ⟨s, s, rfl, rfl, s.scope, rfl, hRefl _⟩))
      | setFilter s => exact .inr (.inr (.inr ⟨s, s, rfl, rfl, s.scope, rfl, hRefl _⟩))
      | _ => exact .inl ⟨rfl, rfl⟩

theorem Alike.spawn (h : Alike env op op') (seed : Solution) :
    (op.spawn env seed).Matches (Process.Alike env) (op'.spawn env seed) := by
  cases h with
  | refl => exact .refl (Process.alike_refl env) _
  | filter h => exact .pure (Process.alike_refl env _)
  | join h =>
      obtain ⟨scope, rfl, hSpawn⟩ := h
      exact hSpawn seed
  | leftJoin h =>
      obtain ⟨scope, rfl, hSpawn⟩ := h
      exact hSpawn seed
  | setFilter h =>
      obtain ⟨scope, rfl, hSpawn⟩ := h
      exact hSpawn seed

theorem Alike.react (h : Alike env op op') (k : Nat) :
    (op.react env k).Alike (Alike env) (op'.react env k) := by
  cases h with
  | refl =>
      exact ⟨fun row => .refl (fun _ => ⟨rfl, .refl _⟩) _, .refl .refl _, fun error => .refl .refl _⟩
  | filter h => exact Filtering.pipe_matches.react (fun _ _ => .filter) h
  | join h => exact Joining.branchPipe_matches.react (fun _ _ => .join) h
  | leftJoin h => exact (LeftJoining.branchPipe_matches k).react (fun _ _ => .leftJoin) h
  | setFilter h => exact SetFilter.leftPipe_matches.react (fun _ _ => .setFilter) h

theorem pipe_matches (env : Environment) (k : Nat) :
    (pipe env k).Matches (Alike env) (pipe env k) :=
  Pipe.matches_ofReaction fun _ _ h => h.react k

/-- An operator and the branches that it has opened are like another one with its branches. -/
def AlikeWith (env : Environment) (s t : Operator × List Process) : Prop :=
  Alike env s.1 t.1 ∧ List.Forall₂ (Process.Alike env) s.2 t.2

theorem openBranch_matches (h : Alike env op op') (k : Nat) {branch branch' : Emission Process}
    (hBranch : branch.Matches (Process.Alike env) branch') {opened opened' : List Process}
    (hOpened : List.Forall₂ (Process.Alike env) opened opened') :
    (openBranch env k op branch opened).Matches (AlikeWith env)
      (openBranch env k op' branch' opened') :=
  ((pipe_matches env k).through hBranch h).bind fun _ _ hNext =>
    .pure ⟨hNext.2, List.rel_append hOpened (.cons hNext.1 .nil)⟩

section

variable {spawn spawn' : Solution → Emission Process}
  (hSpawn : ∀ seed, (spawn seed).Matches (Process.Alike env) (spawn' seed))
  {opened opened' : List Process} (hOpened : List.Forall₂ (Process.Alike env) opened opened')

include hSpawn hOpened

theorem leadRow_matches (h : Alike env op op') (row : Solution) :
    (leadRow env spawn op opened row).Matches (fun a b => a.1 = b.1 ∧ AlikeWith env a.2 b.2)
      (leadRow env spawn' op' opened' row) := by
  obtain ⟨hOp, hOp'⟩ | ⟨s, _, rfl, rfl, scope, rfl, hRight⟩ | ⟨s, _, rfl, rfl, scope, rfl, hRight⟩ |
    ⟨s, t, rfl, rfl, hSame⟩ := h.opening
  · rw [leadRow_of_not_opens hOp, leadRow_of_not_opens hOp', ← bind_pure_comp, ← bind_pure_comp]
    exact ((h.react 0).onRow row).bind fun _ _ hNext => .pure ⟨hNext.1, hNext.2, hOpened⟩
  · simp only [leadRow, Joining.openBranch, bind_assoc]
    refine .bind_same _ fun wanted => ?_
    cases wanted with
    | true =>
        refine (openBranch_matches ?_ 0 (hSpawn row) hOpened).bind fun _ _ hNext => .pure ⟨rfl, hNext⟩
        exact .join ⟨scope, rfl, hRight⟩
    | false => exact .pure ⟨rfl, h, hOpened⟩
  · simp only [leadRow, LeftJoining.openBranch, bind_assoc]
    refine .bind_same _ fun wanted => ?_
    cases wanted with
    | true =>
        refine (openBranch_matches ?_ _ (hSpawn row) hOpened).bind fun _ _ hNext => .pure ⟨rfl, hNext⟩
        exact .leftJoin ⟨scope, rfl, hRight⟩
    | false => exact .pure ⟨rfl, h, hOpened⟩
  · exact (SetFilter.onRightRow_matches hSame row).bind fun _ _ hNext =>
      .pure ⟨hNext.1, .setFilter hNext.2, hOpened⟩

theorem leadFinish_matches (h : Alike env op op') :
    (leadFinish env spawn op opened).Matches (AlikeWith env) (leadFinish env spawn' op' opened') := by
  obtain ⟨hOp, hOp'⟩ | ⟨s, _, rfl, rfl, scope, rfl, hRight⟩ | ⟨s, _, rfl, rfl, scope, rfl, hRight⟩ |
    ⟨s, _, rfl, rfl, scope, rfl, hLeft⟩ := h.opening
  · rw [leadFinish_of_not_opens hOp, leadFinish_of_not_opens hOp', ← bind_pure_comp, ← bind_pure_comp]
    exact (h.react 0).onFinish.bind fun _ _ hNext => .pure ⟨hNext, hOpened⟩
  · exact (h.react 0).onFinish.bind fun _ _ hNext => .pure ⟨hNext, hOpened⟩
  · exact .bind_same s.completion.finish fun completion =>
      .pure ⟨.leftJoin ⟨scope, rfl, hRight⟩, hOpened⟩
  · exact openBranch_matches h 0 (hSpawn s.seed) hOpened

end

/-- Operators that are alike answer their first arguments alike, and open alike branches. -/
theorem lead_matches {spawn spawn' : Solution → Emission Process}
    (hSpawn : ∀ seed, (spawn seed).Matches (Process.Alike env) (spawn' seed)) :
    (lead env spawn).Matches (AlikeWith env) (lead env spawn') where
  onRow _ _ row h := leadRow_matches hSpawn h.2 h.1 row
  onFinish _ _ h := leadFinish_matches hSpawn h.2 h.1
  onFail _ _ error h := ((h.1.react 0).onFail error).bind fun _ _ hNext => .pure ⟨hNext, h.2⟩
  pardon _ _ := False.elim

end Operator

namespace Process

variable {env : Environment} {op op' : Operator} {children children' : List Process}

/-- An operator above processes is like another one above processes, if all of them are alike. -/
theorem alike_node (h : op.Alike env op')
    (hChildren : List.Forall₂ (Alike env) children children') :
    Alike env (.node op children) (.node op' children') := by
  refine ⟨fun p q => ∃ op op' children children', p = .node op children ∧ q = .node op' children' ∧
    op.Alike env op' ∧ List.Forall₂ (Alike env) children children',
    ⟨op, op', children, children', rfl, rfl, h, hChildren⟩, ?_⟩
  rintro _ _ ⟨op, op', children, children', rfl, rfl, h, hChildren⟩
  refine ⟨by simp only [earliest, earliestOf_eq hChildren], fun path => ?_⟩
  match path with
  | [] => exact .pure ⟨op, op', children, children', rfl, rfl, h, hChildren⟩
  | k :: path =>
      obtain ⟨hNone, hNone'⟩ | ⟨child, child', hChild, hChild', hSame, hSet⟩ := forall₂_getElem? hChildren k
      · simp only [deliver, deliverAt_eq, hNone, hNone', Option.map_none]
        exact .pure ⟨op, op', children, children', rfl, rfl, h, hChildren⟩
      · simp only [deliver, deliverAt_eq, hChild, hChild', Option.map_some]
        cases k with
        | zero =>
            refine ((Operator.lead_matches h.spawn).through (hSame.deliver path) ⟨h, .nil⟩).bind
              fun _ _ hNext => .pure ?_
            exact ⟨_, _, _, _, rfl, rfl, hNext.2.1, List.rel_append (hSet _ _ hNext.1) hNext.2.2⟩
        | succ k =>
            refine ((Operator.pipe_matches env k).through (hSame.deliver path) h).bind
              fun _ _ hNext => .pure ?_
            exact ⟨_, _, _, _, rfl, rfl, hNext.2, hSet _ _ hNext.1⟩

/-- An operator above its first argument. -/
theorem under_matches (h : op.Alike env op') {arg arg' : Emission Process}
    {spawn spawn' : Solution → Emission Process}
    (hSpawn : ∀ seed, (spawn seed).Matches (Alike env) (spawn' seed))
    (hArg : arg.Matches (Alike env) arg') :
    (under env op spawn arg).Matches (Alike env) (under env op' spawn' arg') :=
  ((Operator.lead_matches hSpawn).through hArg ⟨h, .nil⟩).bind fun _ _ hNext =>
    .pure (alike_node hNext.2.1 (.cons hNext.1 hNext.2.2))

theorem underOne_matches (h : op.Alike env op') {arg arg' : Emission Process}
    (hArg : arg.Matches (Alike env) arg') :
    (underOne env op arg).Matches (Alike env) (underOne env op' arg') :=
  under_matches h (fun _ => .pure (alike_refl env _)) hArg

theorem underUnion_matches {left left' right right' : Emission Process}
    (hLeft : left.Matches (Alike env) left') (hRight : right.Matches (Alike env) right') :
    (underUnion env left right).Matches (Alike env) (underUnion env left' right') := by
  refine ((Operator.pipe_matches env 0).through hLeft (.refl _)).bind fun _ _ hFirst => ?_
  refine ((Operator.pipe_matches env 0).through hRight hFirst.2).bind fun _ _ hSecond => ?_
  exact .pure (alike_node hSecond.2 (.cons hFirst.1 (.cons hSecond.1 .nil)))

theorem calling_matches {call call' : Environment → Timed Call} (kind : String)
    (hCall : call env = call' env) :
    (calling kind call).Matches (Alike env) (calling kind call') :=
  .bind_same _ fun now => .pure (alike_leaf (.inr ⟨kind, now, call, call', rfl, rfl, hCall⟩))

end Process

end SolutionFlow
