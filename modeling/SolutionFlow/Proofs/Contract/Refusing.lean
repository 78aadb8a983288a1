import SolutionFlow.Proofs.Flow.Heeding

/-! How the operators heed refusals. One that answers each row by itself refuses what it is handed once
its own row is refused; one that merges streams remembers the refusal for all of them, and the number of
those that are open tells when there is no end left to announce. -/
namespace SolutionFlow

variable {env : Environment}

/-- The stream of an operator is closed only when that of its argument is. -/
def Pipe.Plain {σ : Type} (arg own : Bool) (_ : σ) : Prop := own = true → arg = true

theorem Projecting.heeds : pipe.Heeds Pipe.Plain :=
  Pipe.heeds_ofRow fun s row => by simp

theorem MultiProjecting.heeds_pushEach (seed row : Solution)
    (lists : List (List Rename × Option Solution)) :
    (pushEach seed row lists).Heeds (fun own reply => own = true → reply.1 = false) false := by
  induction lists with
  | nil => simp [pushEach]
  | cons head rest ih =>
      obtain ⟨list, last⟩ := head
      rw [pushEach]
      split
      · simpa only [Emission.heeds_bind, Emission.heeds_pure] using ih
      · simp only [Emission.heeds_bind, Emission.heeds_push]
        refine ⟨trivial, fun more => ?_⟩
        cases more with
        | true => simpa using ih
        | false => simp

theorem MultiProjecting.heeds : pipe.Heeds Pipe.Plain :=
  Pipe.heeds_ofRow fun s row => by
    simp only [Emission.heeds_bind, Emission.heeds_pure]
    exact heeds_pushEach s.seed row s.lists

theorem Filtering.heeds : (pipe env).Heeds Pipe.Plain :=
  Pipe.heeds_ofRow fun s row => by
    simp only [Emission.heeds_bind, Emission.heeds_asking]
    intro gone clock
    split <;> simp

theorem Extending.heeds : (pipe env).Heeds Pipe.Plain :=
  Pipe.heeds_ofRow fun s row => by
    simp only [Emission.heeds_bind, Emission.heeds_asking]
    intro gone clock
    split <;> simp

theorem Correcting.heeds : pipe.Heeds Pipe.Plain :=
  Pipe.heeds_ofRow fun s row => by split <;> simp

theorem Reducing.heeds : pipe.Heeds Pipe.Plain :=
  Pipe.heeds_ofRow fun s row => by split <;> simp

theorem Deduplicating.heeds : pipe.Heeds Pipe.Plain where
  onRow own s row hFit := by
    obtain rfl : own = false := by simpa [Pipe.Plain] using hFit
    simp only [pipe, onRow]
    split <;> simp [Pipe.Plain]
  onFinish own s hFit := by simpa [pipe, Pipe.Plain] using hFit
  onFail arg own s error hFit := by simpa [pipe, Pipe.Plain] using hFit

namespace Sorting

theorem heeds_refuse (s : Sorting) (error : SpillError) :
    (s.refuse error).Heeds (fun own reply => own = true → reply.1 = false) false := by
  unfold refuse
  split <;> simp [failWith]

/-- Rows are collected without a word. -/
theorem heeds_onRow (s : Sorting) (row : Solution) :
    (s.onRow env row).Heeds (fun own reply => own = true → reply.1 = false) false := by
  unfold onRow
  split
  next s _ =>
    simp only [collect, Emission.heeds_bind, Emission.heeds_asking]
    intro gone clock
    split
    · simp [failWith]
    · split
      · simp
      · exact heeds_refuse _ _
  next => simp
  next => exact heeds_refuse _ _

/-- The end of what is sorted is the end of the operator, whichever way it comes. -/
theorem heeds_onFinish (s : Sorting) : s.onFinish.Heeds (fun _ _ => True) false := by
  unfold onFinish
  dsimp only
  split
  · trivial
  · simp [failWith]
  · rw [Emission.heeds_bind]
    refine Emission.heeds_pushAll fun more => ?_
    cases more <;> simp

theorem heeds : (pipe env).Heeds Pipe.Plain where
  onRow own s row hFit := by
    obtain rfl : own = false := by simpa [Pipe.Plain] using hFit
    exact (s.heeds_onRow row).mono fun own reply hReply hOwn => by simp [hReply hOwn]
  onFinish own s hFit := by
    obtain rfl : own = false := by simpa [Pipe.Plain] using hFit
    exact s.heeds_onFinish.mono fun _ _ _ _ => rfl
  onFail arg own s error hFit := by simpa [pipe, failWith, Pipe.Plain] using hFit

end Sorting

namespace Window

/-- A window whose stream is closed knows it, unless that of its argument is closed as well. -/
def Fits (arg own : Bool) (w : Window) : Prop := own = true → arg = true ∨ w.closed = true

theorem heeds : pipe.Heeds Fits where
  onRow own w row hFit := by
    simp only [pipe, onRow]
    split
    next hClosed => exact fun _ => .inr hClosed
    next hOpen =>
      obtain rfl : own = false := by simpa [Fits, hOpen] using hFit
      split
      · simp [Fits]
      · split
        · simp [Fits]
        · split
          · simp only [Emission.heeds_bind, Emission.heeds_push]
            refine ⟨trivial, fun more => ?_⟩
            cases more <;> simp [Fits]
          · simp [Fits]
  onFinish own w hFit := by
    simp only [pipe, onFinish]
    split
    · exact fun _ => .inl rfl
    next hOpen =>
      obtain rfl : own = false := by simpa [Fits, hOpen] using hFit
      simp [Fits]
  onFail arg own w error hFit := hFit

end Window

/-- One more stream goes on if one that is closed were not. -/
theorem count_set_false {marks : List Bool} {k : Nat} (hLt : k < marks.length) :
    (marks.set k false).count false = (marks.set k true).count false + 1 := by
  induction marks generalizing k with
  | nil => simp at hLt
  | cons closed rest ih =>
      cases k with
      | zero => simp
      | succ k =>
          have hRest := ih (Nat.lt_of_succ_lt_succ hLt)
          simp only [List.set_cons_succ, List.count_cons, hRest]
          omega

namespace Completion

variable {c : Completion} {own : Bool} {marks : List Bool}

/-- A completion goes with its own stream and those that it merges: it counts those that are not closed,
and its own stream is closed only with all of them or after a refusal. -/
structure Fits (c : Completion) (own : Bool) (marks : List Bool) : Prop where
  counted : marks.count false ≤ c.openStreams
  closed : own = true → c.stopped = true ∨ ∀ closed ∈ marks, closed = true

theorem Fits.new (marks : List Bool) : (new marks.length).Fits false marks :=
  ⟨List.count_le_length, nofun⟩

/-- While a stream goes on that has not been refused anything, so does its merge. -/
theorem Fits.own_eq_false (h : c.Fits own marks) (hOpen : c.stopped = false) (hMem : false ∈ marks) :
    own = false := by
  cases own with
  | false => rfl
  | true =>
      rcases h.closed rfl with hStopped | hAll
      · exact absurd hStopped (by simp [hOpen])
      · exact absurd (hAll false hMem) nofun

theorem Fits.begin (h : c.Fits own marks) (hOpen : c.stopped = false) (hMem : false ∈ marks) :
    c.begin.Fits own (marks ++ [false]) where
  counted := by simpa [Completion.begin] using h.counted
  closed hOwn := absurd hOwn (by simp [h.own_eq_false hOpen hMem])

variable {k : Nat}

/-- It makes no difference to a merge that one of its streams is closed without an end. -/
theorem Fits.anyway (h : c.Fits own (marks.set k false)) (hLt : k < marks.length) (closed : Bool) :
    c.Fits own (marks.set k closed) := by
  cases closed with
  | false => exact h
  | true =>
      have hCount := count_set_false hLt
      refine ⟨by have := h.counted; omega, fun hOwn => ?_⟩
      rcases h.closed hOwn with hStopped | hAll
      · exact .inl hStopped
      · exact absurd (hAll false (List.mem_set hLt false)) nofun

theorem Fits.refuseFirst (h : c.Fits own (false :: marks)) : c.Fits own (true :: marks) := by
  have hFirst : c.Fits own ((false :: marks).set 0 false) := h
  exact hFirst.anyway (Nat.zero_lt_succ _) true

/-- Rows are handed on until one of them is refused. -/
theorem heeds_forward (h : c.Fits own marks) (hMem : false ∈ marks) (row : Solution) :
    (c.forward row).Heeds (fun own reply => reply.2.Fits own marks) own := by
  unfold forward
  split
  next => exact h
  next hOpen =>
    obtain rfl := h.own_eq_false (by simpa using hOpen) hMem
    simp only [Emission.heeds_bind, Emission.heeds_push, Emission.heeds_pure]
    exact ⟨trivial, fun more => ⟨h.counted, .inl⟩⟩

/-- The last stream that ends is the one that ends the merge. -/
theorem heeds_finish (h : c.Fits own (marks.set k false)) (hLt : k < marks.length) :
    c.finish.Heeds (fun own c => c.Fits own (marks.set k true)) own := by
  have hCount := count_set_false hLt
  have hCounted := h.counted
  have hLater : (marks.set k true).count false ≤ c.openStreams - 1 := by omega
  unfold finish close
  cases hLast : c.openStreams == 1 && !c.stopped with
  | false =>
      exact ⟨hLater, (h.anyway hLt true).closed⟩
  | true =>
      obtain ⟨hOne, hOpen⟩ : c.openStreams = 1 ∧ c.stopped = false := by simpa using hLast
      obtain rfl := h.own_eq_false hOpen (List.mem_set hLt false)
      refine ⟨rfl, hLater, fun _ => .inr fun closed hMem => ?_⟩
      have hNone : false ∉ marks.set k true := List.count_eq_zero.mp (by omega)
      cases closed with
      | false => exact absurd hMem hNone
      | true => rfl

theorem heeds_finish_first (h : c.Fits own (false :: marks)) :
    c.finish.Heeds (fun own c => c.Fits own (true :: marks)) own := by
  have hFirst : c.Fits own ((false :: marks).set 0 false) := h
  exact heeds_finish hFirst (Nat.zero_lt_succ _)

theorem heeds (hLt : k < marks.length) :
    pipe.Heeds fun arg own c => c.Fits own (marks.set k arg) where
  onRow _ _ row hFits :=
    (heeds_forward hFits (List.mem_set hLt false) row).mono fun _ _ hNext => hNext.anyway hLt _
  onFinish _ _ hFits := heeds_finish hFits hLt
  onFail _ _ _ _ hFits := hFits

end Completion

namespace Joining

variable (marks : List Bool)

/-- A left row is wanted only while nothing has been refused. -/
theorem heeds_isWanted (c : Completion) (own : Bool) :
    (isWanted c).Heeds (fun now wanted => now = own ∧ (wanted = true → c.stopped = false)) own := by
  unfold isWanted
  split
  next => exact ⟨rfl, nofun⟩
  next hOpen => exact fun gone => ⟨rfl, fun _ => by simpa using hOpen⟩

theorem heeds_branchPipe (right : Plan) (scope : Scope) {k : Nat} (hLt : k < marks.length) :
    branchPipe.Heeds fun arg own s =>
      (s.right = right ∧ s.scope = scope) ∧ s.completion.Fits own (marks.set k arg) where
  onRow := by
    rintro own s row ⟨hSame, hFits⟩
    simp only [branchPipe, Emission.heeds_bind, Emission.heeds_pure]
    exact (Completion.heeds_forward hFits (List.mem_set hLt false) row).mono
      fun _ _ hNext => ⟨hSame, hNext.anyway hLt _⟩
  onFinish := by
    rintro own s ⟨hSame, hFits⟩
    simp only [branchPipe, Emission.heeds_bind, Emission.heeds_pure]
    exact (Completion.heeds_finish hFits hLt).mono fun _ _ hNext => ⟨hSame, hNext⟩
  onFail _ _ _ _ hFits := hFits

end Joining

namespace LeftJoining

variable (marks : List Bool)

theorem heeds_branchPipe (right : Plan) (scope : Scope) (branch : Nat) {k : Nat}
    (hLt : k < marks.length) :
    (branchPipe env branch).Heeds fun arg own s =>
      (s.right = right ∧ s.scope = scope) ∧ s.completion.Fits own (marks.set k arg) where
  onRow := by
    rintro own s row ⟨hSame, hFits⟩
    simp only [branchPipe, onBranchRow]
    split
    next => exact ⟨hSame, hFits.anyway hLt true⟩
    next =>
      simp only [Emission.heeds_bind, Emission.heeds_asking]
      intro gone clock
      split
      · simp only [accept, Emission.heeds_bind, Emission.heeds_pure]
        exact (Completion.heeds_forward hFits (List.mem_set hLt false) row).mono
          fun _ _ hNext => ⟨hSame, hNext.anyway hLt _⟩
      · exact ⟨hSame, hFits⟩
      · exact ⟨hSame, hFits.anyway hLt true⟩
  onFinish := by
    rintro own s ⟨hSame, hFits⟩
    simp only [branchPipe, onBranchFinish]
    split
    next left _ =>
      -- the left row goes before the end of its branch, and if it is refused there is no end to tell
      simp only [Emission.heeds_bind, Emission.heeds_pure]
      refine (Completion.heeds_forward hFits (List.mem_set hLt false) left).mono fun _ _ hNext => ?_
      exact (Completion.heeds_finish hNext hLt).mono fun _ _ hLast => ⟨hSame, hLast⟩
    next =>
      simp only [Emission.heeds_bind, Emission.heeds_pure]
      exact (Completion.heeds_finish hFits hLt).mono fun _ _ hNext => ⟨hSame, hNext⟩
  onFail _ _ _ _ hFits := hFits

end LeftJoining

namespace Operator

open Process (Streams)

variable {right : Plan} {scope : Scope}

/-- A left row that is wanted opens a branch; one that is not is refused. -/
theorem heeds_openWanted {Fit : Operator → Bool → List Bool → Prop} (hBranch : HeedsBranches env Fit)
    {c : Completion} {op next : Operator} {own : Bool} {branches marks : List Bool}
    (hRefuse : Fit op own (true :: (branches ++ marks)))
    (hOpen : c.stopped = false → Fit next own (false :: (branches ++ marks ++ [false])))
    {arg : Emission Process} (hArg : arg.Heeds (Process.Heeds env) false) {opened : List Process}
    (hOpened : Streams env opened marks) (k : Nat) :
    Emission.Heeds (fun own (reply : Bool × Operator × List Process) =>
      ∃ marks, Streams env reply.2.2 marks ∧ Fit reply.2.1 own ((!reply.1) :: (branches ++ marks)))
      (do
        if ← Joining.isWanted c then return (true, ← openBranch env k next arg opened)
        else return (false, op, opened)) own := by
  rw [Emission.heeds_bind]
  refine (Joining.heeds_isWanted c own).mono ?_
  rintro _ wanted ⟨rfl, hWanted⟩
  cases wanted with
  | false => exact ⟨marks, hOpened, hRefuse⟩
  | true =>
      simp only [↓reduceIte, Emission.heeds_bind, Emission.heeds_pure]
      exact heeds_openBranch hBranch (hOpen (hWanted rfl)) hArg hOpened

/-- A join in a state that goes with its streams. -/
def FitsJoin (right : Plan) (scope : Scope) (op : Operator) (own : Bool) (marks : List Bool) : Prop :=
  ∃ s, op = .join s ∧ (s.right = right ∧ s.scope = scope) ∧ s.completion.Fits own marks

/-- A left join in a state that goes with its streams. -/
def FitsLeftJoin (right : Plan) (scope : Scope) (op : Operator) (own : Bool) (marks : List Bool) :
    Prop :=
  ∃ s, op = .leftJoin s ∧ (s.right = right ∧ s.scope = scope) ∧ s.completion.Fits own marks

theorem heedsBranches_join : HeedsBranches env (FitsJoin right scope) := by
  intro k j first branches hLt
  exact heeds_wrap (fun _ => rfl)
    (Joining.heeds_branchPipe (first :: branches) right scope (Nat.succ_lt_succ hLt))

theorem heedsBranches_leftJoin : HeedsBranches env (FitsLeftJoin right scope) := by
  intro k j first branches hLt
  exact heeds_wrap (fun _ => rfl)
    (LeftJoining.heeds_branchPipe (first :: branches) right scope k (Nat.succ_lt_succ hLt))

theorem leadRow_join {κ : Type} (spawn : Solution → Emission κ) (s : Joining) (opened : List κ)
    (row : Solution) :
    leadRow env spawn (.join s) opened row = (do
      if ← Joining.isWanted s.completion then
        return (true, ← openBranch env 0 (.join { s with completion := s.completion.begin }) (spawn row)
          opened)
      else return (false, .join s, opened)) := by
  simp only [leadRow, Joining.openBranch, bind_assoc]
  congr 1
  funext wanted
  cases wanted <;> rfl

theorem leadRow_leftJoin {κ : Type} (spawn : Solution → Emission κ) (s : LeftJoining)
    (opened : List κ) (row : Solution) :
    leadRow env spawn (.leftJoin s) opened row = (do
      if ← Joining.isWanted s.completion then
        return (true, ← openBranch env s.branches.length (.leftJoin { s with
          completion := s.completion.begin, branches := s.branches ++ [⟨row, true⟩] }) (spawn row)
          opened)
      else return (false, .leftJoin s, opened)) := by
  simp only [leadRow, LeftJoining.openBranch, bind_assoc]
  congr 1
  funext wanted
  cases wanted <;> rfl

theorem heeds_join (hRight : ∀ seed, (right.start env seed scope).Heeds (Process.Heeds env) false) :
    Operator.Heeds env (fun seed => right.start env seed scope) (FitsJoin right scope) where
  spawn_eq := by
    rintro _ own marks ⟨s, rfl, ⟨rfl, rfl⟩, -⟩
    rfl
  lead branches :=
    { onRow := by
        rintro own ⟨_, opened⟩ row ⟨marks, hOpened, s, rfl, hSame, hFits⟩
        simp only [lead, leadRow_join]
        exact heeds_openWanted heedsBranches_join ⟨s, rfl, hSame, hFits.refuseFirst⟩
          (fun hOpen => ⟨{ s with completion := s.completion.begin }, rfl, hSame,
            hFits.begin hOpen (List.mem_cons_self ..)⟩) (hRight row) hOpened 0
      onFinish := by
        rintro own ⟨_, opened⟩ ⟨marks, hOpened, s, rfl, hSame, hFits⟩
        simp only [lead, leadFinish, react, Pipe.react, Joining.branchPipe, Emission.heeds_bind,
          Emission.heeds_pure]
        exact (Completion.heeds_finish_first hFits).mono
          fun _ _ hNext => ⟨marks, hOpened, _, rfl, hSame, hNext⟩
      onFail := by
        rintro arg own ⟨_, opened⟩ error ⟨marks, hOpened, s, rfl, hSame, hFits⟩
        exact ⟨marks, hOpened, s, rfl, hSame, hFits⟩ }
  branches := heedsBranches_join

theorem heeds_leftJoin (hRight : ∀ seed, (right.start env seed scope).Heeds (Process.Heeds env) false) :
    Operator.Heeds env (fun seed => right.start env seed scope) (FitsLeftJoin right scope) where
  spawn_eq := by
    rintro _ own marks ⟨s, rfl, ⟨rfl, rfl⟩, -⟩
    rfl
  lead branches :=
    { onRow := by
        rintro own ⟨_, opened⟩ row ⟨marks, hOpened, s, rfl, hSame, hFits⟩
        simp only [lead, leadRow_leftJoin]
        exact heeds_openWanted heedsBranches_leftJoin ⟨s, rfl, hSame, hFits.refuseFirst⟩
          (fun hOpen => ⟨{ s with
            completion := s.completion.begin, branches := s.branches ++ [⟨row, true⟩] }, rfl, hSame,
            hFits.begin hOpen (List.mem_cons_self ..)⟩) (hRight row) hOpened _
      onFinish := by
        rintro own ⟨_, opened⟩ ⟨marks, hOpened, s, rfl, hSame, hFits⟩
        simp only [lead, leadFinish, Emission.heeds_bind, Emission.heeds_pure]
        exact (Completion.heeds_finish_first hFits).mono
          fun _ _ hNext => ⟨marks, hOpened, _, rfl, hSame, hNext⟩
      onFail := by
        rintro arg own ⟨_, opened⟩ error ⟨marks, hOpened, s, rfl, hSame, hFits⟩
        exact ⟨marks, hOpened, s, rfl, hSame, hFits⟩ }
  branches := heedsBranches_leftJoin

/-- A merge of two streams in a state that goes with them. -/
def FitsUnion (op : Operator) (own : Bool) (marks : List Bool) : Prop :=
  ∃ c, op = .union c ∧ c.Fits own marks

theorem heeds_union : Operator.Heeds env (fun _ => return .idle) FitsUnion := by
  refine heeds_closed ?_ fun k j marks hLt => heeds_wrap (fun _ => rfl) (Completion.heeds hLt)
  rintro _ own marks ⟨c, rfl, -⟩
  rfl

end Operator

namespace SetFilter

variable {left : Plan} {seed : Solution} {scope : Scope}

/-- An operator that filters by its first argument starts its branch with this. -/
def Starts (left : Plan) (seed : Solution) (scope : Scope) (s : SetFilter) : Prop :=
  s.left = left ∧ s.seed = seed ∧ s.scope = scope

/-- Nothing is handed on when a store has failed. -/
theorem heeds_refuse {s : SetFilter} (hStarts : s.Starts left seed scope) (error : SpillError)
    (own : Bool) :
    (s.refuse error).Heeds (fun now reply => now = own ∧ reply.1 = false ∧
      reply.2.Starts left seed scope) own := by
  unfold refuse
  split
  · exact ⟨rfl, rfl, hStarts⟩
  · exact ⟨rfl, rfl, hStarts⟩

theorem heeds_onRightRow {s : SetFilter} (hStarts : s.Starts left seed scope) (row : Solution)
    (own : Bool) :
    (s.onRightRow row).Heeds (fun now reply => now = own ∧ reply.2.Starts left seed scope) own := by
  have hAdded : ({ s with right := (s.right.add row).2 } : SetFilter).Starts left seed scope := hStarts
  unfold onRightRow
  dsimp only
  split
  · exact ⟨rfl, hAdded⟩
  · exact (heeds_refuse hAdded _ own).mono fun _ _ hReply => ⟨hReply.1, hReply.2.2⟩

theorem heeds_leftPipe (left : Plan) (seed : Solution) (scope : Scope) :
    leftPipe.Heeds fun arg own s => s.Starts left seed scope ∧ (own = true → arg = true) where
  onRow := by
    rintro own s row ⟨hStarts, hFit⟩
    obtain rfl : own = false := by simpa using hFit
    simp only [leftPipe, onLeftRow]
    split
    · simpa using hStarts
    · exact ⟨hStarts, by simp⟩
    · exact (heeds_refuse hStarts _ false).mono fun _ _ hReply =>
        ⟨hReply.2.2, fun _ => by simp [hReply.2.1]⟩
  onFinish := by
    rintro own s ⟨hStarts, hFit⟩
    obtain rfl : own = false := by simpa using hFit
    exact ⟨rfl, hStarts, fun _ => rfl⟩
  onFail := by
    rintro arg own s error ⟨hStarts, hFit⟩
    exact ⟨hStarts, hFit⟩

end SetFilter

namespace Operator

open Process (Streams)

variable {left : Plan} {seed : Solution} {scope : Scope}

/-- An intersection or a difference in a state that goes with its streams: it starts its only branch
when its first argument has ended, and its own stream is closed only with that branch. -/
def FitsSetFilter (left : Plan) (seed : Solution) (scope : Scope) (op : Operator) (own : Bool)
    (marks : List Bool) : Prop :=
  ∃ s, op = .setFilter s ∧ s.Starts left seed scope ∧
    ((own = false ∧ marks.length = 1) ∨ ∃ branch, marks = [true, branch] ∧ (own = true → branch = true))

theorem heedsBranches_setFilter : HeedsBranches env (FitsSetFilter left seed scope) := by
  intro k j first branches hLt
  refine heeds_wrap (fun _ => rfl) ?_
  match first, branches, j, hLt with
  | true, [_], 0, _ =>
      refine (SetFilter.heeds_leftPipe left seed scope).of_iff fun arg own s => ?_
      refine and_congr_right fun _ => ?_
      simp
  | false, [_], 0, _ =>
      refine Pipe.heeds_of_unfit fun arg own s => ?_
      simp
  | first, _ :: _ :: _, j, _ =>
      refine Pipe.heeds_of_unfit fun arg own s => ?_
      rintro ⟨-, ⟨-, hLength⟩ | ⟨branch, hSame, -⟩⟩
      · simp at hLength
      · simpa using congrArg List.length hSame

theorem heeds_setFilter (hLeft : (left.start env seed scope).Heeds (Process.Heeds env) false) :
    Operator.Heeds env (fun seed => left.start env seed scope) (FitsSetFilter left seed scope) where
  spawn_eq := by
    rintro _ own marks ⟨s, rfl, ⟨rfl, -, rfl⟩, -⟩
    rfl
  lead branches :=
    { onRow := by
        rintro own ⟨_, opened⟩ row ⟨marks, hOpened, s, rfl, hStarts, ⟨rfl, hLength⟩ | ⟨_, hSame, -⟩⟩
        · simp only [lead, leadRow, Emission.heeds_bind, Emission.heeds_pure]
          refine (SetFilter.heeds_onRightRow hStarts row false).mono ?_
          rintro _ ⟨more, s'⟩ ⟨rfl, hStarts'⟩
          exact ⟨marks, hOpened, s', rfl, hStarts', .inl ⟨rfl, hLength⟩⟩
        · simp at hSame
      onFinish := by
        rintro own ⟨_, opened⟩ ⟨marks, hOpened, s, rfl, hStarts, ⟨rfl, hLength⟩ | ⟨_, hSame, -⟩⟩
        · obtain ⟨rfl, rfl⟩ : branches = [] ∧ marks = [] := by simpa using hLength
          have hArg : (left.start env s.seed scope).Heeds (Process.Heeds env) false :=
            hStarts.2.1 ▸ hLeft
          have hFit : FitsSetFilter left seed scope (.setFilter s) false
              (true :: ([] ++ [] ++ [false])) :=
            ⟨s, rfl, hStarts, .inr ⟨false, rfl, by simp⟩⟩
          exact heeds_openBranch heedsBranches_setFilter hFit hArg hOpened
        · simp at hSame
      onFail := by
        rintro arg own ⟨_, opened⟩ error ⟨marks, hOpened, s, rfl, hStarts, hFit⟩
        exact ⟨marks, hOpened, _, rfl, hStarts, hFit⟩ }
  branches := heedsBranches_setFilter

end Operator

end SolutionFlow
