import SolutionFlow.Proofs.Flow.Ensures
import SolutionFlow.Proofs.Spill.Counted
import SolutionFlow.Proofs.Spill.Members

/-! What the operators make of the rows of their arguments. Most of them hand on no other rows than they
have received; those that start arguments hand on the rows of these. -/
namespace SolutionFlow

variable {env : Environment} {P Q : Solution → Prop}

namespace Completion

theorem ensures_forward {c : Completion} {row : Solution} (hRow : P row) :
    (c.forward row).Ensures P fun _ => True := by
  unfold forward
  split
  · trivial
  · simpa using hRow

theorem ensures_finish (c : Completion) : c.finish.Ensures P fun _ => True := by
  unfold finish
  split <;> simp

theorem carries : pipe.Carries P P fun _ => True where
  onRow _ _ _ hRow := ensures_forward hRow
  onFinish c _ := ensures_finish c
  onFail c error _ := by simp [pipe]

end Completion

theorem Window.carries : Window.pipe.Carries P P fun _ => True where
  onRow w row _ hRow := by
    simp only [pipe, onRow]
    split
    · trivial
    split
    · trivial
    split
    · simpa using hRow
    split
    · simp only [Emission.ensures_bind, Emission.ensures_push]
      refine ⟨hRow, fun more => ?_⟩
      split <;> simp
    · trivial
  onFinish w _ := by
    simp only [pipe, onFinish]
    split <;> simp
  onFail w error _ := by simp [pipe]

theorem Deduplicating.carries : Deduplicating.pipe.Carries P P fun _ => True where
  onRow s row _ hRow := by
    simp only [pipe, onRow]
    split <;> simp [hRow]
  onFinish s _ := by simp [pipe]
  onFail s error _ := by simp [pipe]

theorem Reducing.carries : Reducing.pipe.Carries P P fun _ => True := by
  refine Pipe.carries_ofRow fun s row _ hRow => ?_
  split <;> simp [hRow]

theorem Filtering.carries : (Filtering.pipe env).Carries P P fun _ => True := by
  refine Pipe.carries_ofRow fun s row _ hRow => ?_
  simp only [Emission.ensures_bind, Emission.ensures_asking]
  intro gone clock
  split <;> simp [hRow]

namespace Sorting

/-- All rows that have been collected fulfil `P`. -/
def Collects (P : Solution → Prop) (s : Sorting) : Prop := s.sorter.All fun key => P key.row

theorem collects_new (keys : List (Direction × Expr)) (scope : Scope) (spill : SpillOptions) :
    (new keys scope spill).Collects P := Sorter.all_new _ _

theorem collects_close (s : Sorting) : s.close.Collects P := Sorter.all_close _

theorem ensures_failWith (s : Sorting) (error : QueryError) :
    (s.failWith error).Ensures P (Collects P) := by
  simpa [failWith] using collects_close s

theorem ensures_refuse {s : Sorting} (h : s.Collects P) (error : SpillError) :
    (s.refuse error).Ensures P fun reply => reply.2.Collects P := by
  unfold refuse
  split
  · exact h
  · simp only [bind_pure_comp, Emission.ensures_map]
    exact ensures_failWith s _

theorem ensures_collect {s : Sorting} (h : s.Collects P) {row : Solution} (hRow : P row) :
    (s.collect env row).Ensures P fun reply => reply.2.Collects P := by
  simp only [collect, Emission.ensures_bind, Emission.ensures_asking]
  intro gone clock
  split
  next =>
    simp only [Emission.ensures_bind, Emission.ensures_pure]
    exact ensures_failWith s _
  next values _ =>
    have hAdd : Sorter.All (fun key : SortKey => P key.row)
        (s.sorter.add ⟨values, s.arrivals, row⟩).2 := Sorter.All.add h hRow
    split
    · exact hAdd
    · refine ensures_refuse ?_ _
      exact hAdd

theorem carries : (pipe env).Carries P P (Collects P) where
  onRow s row h hRow := by
    have hNote : (s.note row).2.Collects P := by
      unfold note
      split <;> exact h
    simp only [pipe, onRow]
    split
    next hEq => exact ensures_collect (by simpa [hEq] using hNote) hRow
    next hEq => simpa [hEq] using hNote
    next hEq => exact ensures_refuse (by simpa [hEq] using hNote) _
  onFinish s h := by
    obtain ⟨hSorted, hRest⟩ := Sorter.All.drain h
    simp only [pipe, onFinish]
    split
    next => exact h
    next => exact ensures_failWith _ _
    next sorted sorter hEq =>
      simp only [Emission.ensures_bind]
      refine Emission.ensures_pushAll ?_ fun more => ?_
      · simp only [rows, List.mem_flatMap, List.mem_replicate]
        rintro row ⟨entry, hMem, -, rfl⟩
        exact hSorted sorted (by rw [hEq]) entry hMem
      · cases more <;> simp [Collects, Sorter.all_close]
  onFail s error _ := ensures_failWith s error

end Sorting

namespace SetFilter

variable {s₀ s : SetFilter}

/-- The same operator with other right rows, all of which fulfil `Q`. -/
def Collects (Q : Solution → Prop) (s₀ s : SetFilter) : Prop :=
  ∃ right : MemberSet Solution, s = { s₀ with right := right } ∧ ∀ row ∈ right.members, Q row

theorem Collects.close (h : s₀.Collects Q s) : s₀.Collects Q s.close := by
  obtain ⟨right, rfl, -⟩ := h
  exact ⟨right.close, rfl, by simp [MemberSet.close, MemberSet.members]⟩

theorem ensures_failWith (h : s₀.Collects Q s) (error : QueryError) :
    (s.failWith error).Ensures P (s₀.Collects Q) := by
  simpa [failWith] using h.close

theorem ensures_refuse (h : s₀.Collects Q s) (error : SpillError) :
    (s.refuse error).Ensures P fun reply => s₀.Collects Q reply.2 := by
  unfold refuse
  split
  · exact h
  · simp only [bind_pure_comp, Emission.ensures_map]
    exact ensures_failWith h _

/-- What stays of the left rows in an intersection is among the right ones. -/
theorem Collects.of_keeps (h : s₀.Collects Q s) {row : Solution}
    (hKeeps : s.op.keeps s.right row = .ok true) (hOp : s₀.op = .intersection) : Q row := by
  obtain ⟨right, rfl, hRight⟩ := h
  simp only [hOp, SetOperator.keeps] at hKeeps
  exact hRight row (MemberSet.mem_of_contains hKeeps)

theorem carries (s₀ : SetFilter) :
    leftPipe.Carries P (fun row => P row ∧ (s₀.op = .intersection → Q row)) (s₀.Collects Q) where
  onRow s row h hRow := by
    simp only [leftPipe, onLeftRow]
    split
    next hKeeps => simpa using ⟨⟨hRow, h.of_keeps hKeeps⟩, h⟩
    next => exact h
    next => exact ensures_refuse h _
  onFinish s h := by simpa [leftPipe] using h.close
  onFail s error h := ensures_failWith h error

theorem ensures_onRightRow (h : s₀.Collects Q s) {row : Solution} (hRow : Q row) :
    (s.onRightRow row).Ensures P fun reply => s₀.Collects Q reply.2 := by
  obtain ⟨right, rfl, hRight⟩ := h
  have hAdded : s₀.Collects Q { s₀ with right := (right.add row).2 } := by
    refine ⟨_, rfl, fun other hMem => ?_⟩
    rcases MemberSet.mem_of_mem_add hMem with hOld | rfl
    · exact hRight other hOld
    · exact hRow
  unfold onRightRow
  dsimp only
  split
  · exact hAdded
  · exact ensures_refuse hAdded _

end SetFilter

namespace Joining

/-- The same join with another count of its streams. -/
def Like (s₀ s : Joining) : Prop := ∃ c, s = { s₀ with completion := c }

theorem carries (s₀ : Joining) : branchPipe.Carries P P s₀.Like where
  onRow s row h hRow := by
    obtain ⟨c, rfl⟩ := h
    simp only [branchPipe, Emission.ensures_bind, Emission.ensures_pure]
    exact (Completion.ensures_forward hRow).mono (fun _ => id) fun _ _ => ⟨_, rfl⟩
  onFinish s h := by
    obtain ⟨c, rfl⟩ := h
    simp only [branchPipe, Emission.ensures_bind, Emission.ensures_pure]
    exact (Completion.ensures_finish _).mono (fun _ => id) fun _ _ => ⟨_, rfl⟩
  onFail s error h := by simpa [branchPipe] using h

theorem ensures_isWanted (c : Completion) : (isWanted c).Ensures P fun _ => True := by
  unfold isWanted
  split <;> simp

theorem ensures_openBranch {s₀ s : Joining} (h : s₀.Like s) :
    s.openBranch.Ensures P fun next => ∀ s', next = some s' → s₀.Like s' := by
  obtain ⟨c, rfl⟩ := h
  simp only [openBranch, Emission.ensures_bind]
  refine (ensures_isWanted _).mono (fun _ => id) fun wanted _ => ?_
  cases wanted with
  | true =>
      rintro _ ⟨⟩
      exact ⟨_, rfl⟩
  | false => simp

end Joining

namespace LeftJoining

/-- The same left join with other branches, all of them for left rows that fulfil `P`. -/
def Like (P : Solution → Prop) (s₀ s : LeftJoining) : Prop :=
  ∃ c branches, s = { s₀ with completion := c, branches := branches } ∧ ∀ b ∈ branches, P b.left

theorem like_markMatched {s₀ s : LeftJoining} (h : s₀.Like P s) (k : Nat) (c : Completion) :
    s₀.Like P { s.markMatched k with completion := c } := by
  obtain ⟨c', branches, rfl, hBranches⟩ := h
  refine ⟨c, _, rfl, fun b hMem => ?_⟩
  obtain ⟨j, hGet⟩ := List.mem_iff_getElem?.mp hMem
  rw [markMatched, List.getElem?_modify] at hGet
  obtain ⟨old, hOld, rfl⟩ := Option.map_eq_some_iff.mp hGet
  have hLeft := hBranches old (List.mem_of_getElem? hOld)
  split <;> exact hLeft

theorem carries (s₀ : LeftJoining) (k : Nat) : (branchPipe env k).Carries P P (s₀.Like P) where
  onRow s row h hRow := by
    simp only [branchPipe, onBranchRow]
    split
    · exact h
    · simp only [Emission.ensures_bind, Emission.ensures_asking]
      intro gone clock
      split
      · simp only [accept, Emission.ensures_bind, Emission.ensures_pure]
        exact (Completion.ensures_forward hRow).mono (fun _ => id) fun _ _ => like_markMatched h k _
      · exact h
      · simpa using h
  onFinish s h := by
    obtain ⟨c, branches, rfl, hBranches⟩ := h
    have hNext : ∀ c', s₀.Like P { s₀ with completion := c', branches := branches } :=
      fun c' => ⟨c', branches, rfl, hBranches⟩
    simp only [branchPipe, onBranchFinish]
    split
    next left hGet =>
      simp only [Emission.ensures_bind, Emission.ensures_pure]
      refine (Completion.ensures_forward (hBranches _ (List.mem_of_getElem? hGet))).mono
        (fun _ => id) fun _ _ => ?_
      exact (Completion.ensures_finish _).mono (fun _ => id) fun c' _ => hNext c'
    next =>
      simp only [Emission.ensures_bind, Emission.ensures_pure]
      exact (Completion.ensures_finish _).mono (fun _ => id) fun c' _ => hNext c'
  onFail s error h := by simpa [branchPipe] using h

theorem ensures_openBranch {s₀ s : LeftJoining} (h : s₀.Like P s) {left : Solution}
    (hLeft : P left) :
    (s.openBranch left).Ensures P fun next => ∀ s', next = some s' → s₀.Like P s' := by
  obtain ⟨c, branches, rfl, hBranches⟩ := h
  simp only [openBranch, Emission.ensures_bind]
  refine (Joining.ensures_isWanted _).mono (fun _ => id) fun wanted _ => ?_
  cases wanted with
  | true =>
      rintro _ ⟨⟩
      refine ⟨_, _, rfl, ?_⟩
      simp only [List.forall_mem_append, List.forall_mem_singleton]
      exact ⟨hBranches, hLeft⟩
  | false => simp

end LeftJoining

namespace Operator

open Process (Emits)

/-- A join hands over what its right argument does on left rows. -/
theorem serves_join (s₀ : Joining)
    (hRight : ∀ row, Q row → (s₀.right.start env row s₀.scope).Ensures P (Emits env P)) :
    Serves env (fun row => s₀.right.start env row s₀.scope) Q P P
      fun op => ∃ s, op = .join s ∧ s₀.Like s := by
  have hBranch : ∀ k, (pipe env k).Carries P P fun op => ∃ s, op = .join s ∧ s₀.Like s :=
    fun k => carries_wrap (fun _ => rfl) (s₀.carries)
  refine ⟨?_, ⟨?_, ?_, ?_⟩, hBranch⟩
  · rintro _ ⟨_, rfl, c, rfl⟩
    rfl
  · rintro ⟨_, opened⟩ row ⟨⟨s, rfl, hLike⟩, hOpened⟩ hRow
    simp only [Operator.lead, leadRow, Emission.ensures_bind]
    refine (Joining.ensures_openBranch hLike).mono (fun _ => id) fun next hNext => ?_
    split
    next s' =>
      simp only [Emission.ensures_bind, Emission.ensures_pure]
      exact ensures_openBranch (hBranch 0) ⟨s', rfl, hNext s' rfl⟩ (hRight row hRow) hOpened
    next => exact ⟨⟨s, rfl, hLike⟩, hOpened⟩
  · rintro ⟨_, opened⟩ ⟨⟨s, rfl, hLike⟩, hOpened⟩
    simp only [Operator.lead, leadFinish, Emission.ensures_bind, Emission.ensures_pure]
    exact ((hBranch 0).onFinish _ ⟨s, rfl, hLike⟩).mono (fun _ => id) fun _ hNext => ⟨hNext, hOpened⟩
  · rintro ⟨_, opened⟩ error ⟨⟨s, rfl, hLike⟩, hOpened⟩
    simp only [Operator.lead, Emission.ensures_bind, Emission.ensures_pure]
    exact ((hBranch 0).onFail _ error ⟨s, rfl, hLike⟩).mono (fun _ => id)
      fun _ hNext => ⟨hNext, hOpened⟩

/-- A left join hands over what its right argument does on left rows, and left rows. -/
theorem serves_leftJoin (s₀ : LeftJoining) (hLeft : ∀ row, Q row → P row)
    (hRight : ∀ row, Q row → (s₀.right.start env row s₀.scope).Ensures P (Emits env P)) :
    Serves env (fun row => s₀.right.start env row s₀.scope) Q P P
      fun op => ∃ s, op = .leftJoin s ∧ s₀.Like P s := by
  have hBranch : ∀ k, (pipe env k).Carries P P fun op => ∃ s, op = .leftJoin s ∧ s₀.Like P s :=
    fun k => carries_wrap (fun _ => rfl) (s₀.carries k)
  refine ⟨?_, ⟨?_, ?_, ?_⟩, hBranch⟩
  · rintro _ ⟨_, rfl, c, branches, rfl, -⟩
    rfl
  · rintro ⟨_, opened⟩ row ⟨⟨s, rfl, hLike⟩, hOpened⟩ hRow
    simp only [Operator.lead, leadRow, Emission.ensures_bind]
    refine (LeftJoining.ensures_openBranch hLike (hLeft row hRow)).mono (fun _ => id)
      fun next hNext => ?_
    split
    next s' =>
      simp only [Emission.ensures_bind, Emission.ensures_pure]
      exact ensures_openBranch (hBranch _) ⟨s', rfl, hNext s' rfl⟩ (hRight row hRow) hOpened
    next => exact ⟨⟨s, rfl, hLike⟩, hOpened⟩
  · rintro ⟨_, opened⟩ ⟨⟨_, rfl, c, branches, rfl, hBranches⟩, hOpened⟩
    simp only [Operator.lead, leadFinish, Emission.ensures_bind, Emission.ensures_pure]
    exact (Completion.ensures_finish _).mono (fun _ => id)
      fun c' _ => ⟨⟨_, rfl, c', branches, rfl, hBranches⟩, hOpened⟩
  · rintro ⟨_, opened⟩ error ⟨⟨s, rfl, hLike⟩, hOpened⟩
    simp only [Operator.lead, Emission.ensures_bind, Emission.ensures_pure]
    exact ((hBranch 0).onFail _ error ⟨s, rfl, hLike⟩).mono (fun _ => id)
      fun _ hNext => ⟨hNext, hOpened⟩

/-- An intersection or a difference hands over rows of its left argument, an intersection only such as
its right argument hands over as well. -/
theorem serves_setFilter (s₀ : SetFilter)
    (hLeft : (s₀.left.start env s₀.seed s₀.scope).Ensures P (Emits env P)) :
    Serves env (fun row => s₀.left.start env row s₀.scope) Q P
      (fun row => P row ∧ (s₀.op = .intersection → Q row))
      fun op => ∃ s, op = .setFilter s ∧ s₀.Collects Q s := by
  have hBranch : ∀ k, (pipe env k).Carries P (fun row => P row ∧ (s₀.op = .intersection → Q row))
      fun op => ∃ s, op = .setFilter s ∧ s₀.Collects Q s :=
    fun k => carries_wrap (fun _ => rfl) (s₀.carries)
  refine ⟨?_, ⟨?_, ?_, ?_⟩, hBranch⟩
  · rintro _ ⟨_, rfl, right, rfl, -⟩
    rfl
  · rintro ⟨_, opened⟩ row ⟨⟨s, rfl, hCollects⟩, hOpened⟩ hRow
    simp only [Operator.lead, leadRow, Emission.ensures_bind, Emission.ensures_pure]
    exact (SetFilter.ensures_onRightRow hCollects hRow).mono (fun _ => id)
      fun reply hNext => ⟨⟨_, rfl, hNext⟩, hOpened⟩
  · rintro ⟨_, opened⟩ ⟨⟨_, rfl, right, rfl, hRight⟩, hOpened⟩
    exact ensures_openBranch (hBranch 0) ⟨_, rfl, right, rfl, hRight⟩ hLeft hOpened
  · rintro ⟨_, opened⟩ error ⟨⟨s, rfl, hCollects⟩, hOpened⟩
    simp only [Operator.lead, Emission.ensures_bind, Emission.ensures_pure]
    exact ((hBranch 0).onFail _ error ⟨s, rfl, hCollects⟩).mono (fun _ => id)
      fun _ hNext => ⟨hNext, hOpened⟩

end Operator

namespace Process

/-- A union hands over the rows of both of its arguments. -/
theorem ensures_underUnion {left right : Emission Process} (hLeft : left.Ensures P (Emits env P))
    (hRight : right.Ensures P (Emits env P)) :
    (underUnion env left right).Ensures P (Emits env P) := by
  have hServes : Operator.Serves env (fun _ => return .idle) P P P
      fun op => ∃ s, op = .union s ∧ True :=
    Operator.serves_wrap (fun _ => rfl) (fun _ _ => rfl) Completion.carries
  simp only [underUnion, Emission.ensures_bind, Emission.ensures_pure]
  refine ((hServes.branch 0).through ⟨_, rfl, trivial⟩ hLeft).mono (fun _ => id) ?_
  rintro ⟨first, op⟩ ⟨hFirst, hState⟩
  refine ((hServes.branch 0).through hState hRight).mono (fun _ => id) ?_
  rintro ⟨second, op'⟩ ⟨hSecond, hState'⟩
  exact emits_node hServes hState' hFirst (by simpa using hSecond)

end Process

end SolutionFlow
