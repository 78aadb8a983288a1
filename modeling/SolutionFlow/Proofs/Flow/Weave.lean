import SolutionFlow.Flow.Operator.Basic
import SolutionFlow.Flow.Process
import SolutionFlow.Proofs.Flow.Answers

/-! Streams that are woven together. A weave is an order in which an operator has heard what its
arguments say, event by event, and what it has made of it. The theorems about operators are about
weaves, in which the arguments are nothing but streams. -/
namespace SolutionFlow

/-- What stands around an item of a list stays when the item is replaced. -/
theorem exists_around {α : Type} {items : List α} {k : Nat} {item : α}
    (hGet : items[k]? = some item) :
    ∃ before after, items = before ++ item :: after ∧
      ∀ other, items.set k other = before ++ other :: after := by
  obtain ⟨hLength, rfl⟩ := List.getElem?_eq_some_iff.mp hGet
  refine ⟨items.take k, items.drop (k + 1), ?_, fun other => ?_⟩
  · rw [← List.drop_eq_getElem_cons hLength, List.take_append_drop]
  · rw [List.set_eq_take_append_cons_drop, if_pos hLength]

theorem modify_eq_set {α : Type} {items : List α} {k : Nat} {item : α}
    (hGet : items[k]? = some item) (f : α → α) : items.modify k f = items.set k (f item) := by
  obtain ⟨hLength, rfl⟩ := List.getElem?_eq_some_iff.mp hGet
  rw [List.modify_eq_take_cons_drop hLength, List.set_eq_take_append_cons_drop, if_pos hLength]

namespace Operator

variable {env : Environment}

/-- The operator can hear this event of its first argument; `seeds` are what it then starts other
arguments on. -/
def Hears (env : Environment) (op : Operator) (e : Event) (t : Trace) (op' : Operator)
    (seeds : List Solution) : Prop :=
  (lead env Emission.done).Relays (op, []) e t (op', seeds)

/-- What an argument has been started on, and what it has said. -/
structure Strand where
  seed : Solution
  trace : Trace

namespace Strand

def new (seed : Solution) : Strand := ⟨seed, []⟩

/-- A strand after more has been said. -/
def say (s : Strand) (t : Trace) : Strand := { s with trace := s.trace ++ t }

theorem say_nil (s : Strand) : s.say [] = s :=
  congrArg (Strand.mk s.seed) (List.append_nil s.trace)

theorem say_say (s : Strand) (t u : Trace) : (s.say t).say u = s.say (t ++ u) :=
  congrArg (Strand.mk s.seed) (List.append_assoc s.trace t u)

end Strand

/-- If strands keep the order after one of them has said something, they have kept it before. -/
theorem Strand.orderly_of_set {strands : List Strand} {strand : Strand} {k : Nat} {t : Trace}
    (hGet : strands[k]? = some strand)
    (h : ∀ other ∈ strands.set k (strand.say t), other.trace.Orderly) :
    Trace.Orderly (strand.trace ++ t) ∧ ∀ other ∈ strands, other.trace.Orderly := by
  obtain ⟨before, after, rfl, hSet⟩ := exists_around hGet
  simp only [hSet, List.forall_mem_append, List.forall_mem_cons] at h ⊢
  exact ⟨h.2.1, h.1, h.2.1.of_append, h.2.2⟩

/-- From `start`, with some branches open, an operator can come to say `said` when its first argument
has said `lead` and its branches what their strands hold. -/
inductive Weaves (env : Environment) (start : Operator) (opened : List Strand) :
    Operator → Trace → List Strand → Trace → Prop where
  | nil : Weaves env start opened start [] opened []
  | lead {op op' : Operator} {lead said t : Trace} {strands : List Strand} {e : Event}
      {seeds : List Solution} (prior : Weaves env start opened op lead strands said)
      (last : op.Hears env e t op' seeds) :
      Weaves env start opened op' (lead ++ [e]) (strands ++ seeds.map Strand.new) (said ++ t)
  | branch {op op' : Operator} {lead said t : Trace} {strands : List Strand} {e : Event} {k : Nat}
      {strand : Strand} (prior : Weaves env start opened op lead strands said)
      (hGet : strands[k]? = some strand) (last : (pipe env k).Relays op e t op') :
      Weaves env start opened op' lead (strands.set k (strand.say [e])) (said ++ t)

/-- How many branches an operator has noted, if it tells them apart. -/
def branchCount : Operator → Option Nat
  | .leftJoin s => some s.branches.length
  | _ => none

/-- An operator that tells its branches apart has noted `n` of them. -/
def Counts (op : Operator) (n : Nat) : Prop := ∀ m, op.branchCount = some m → m = n

/-- Neither what an operator starts branches with nor their number differs. -/
structure Like (env : Environment) (op op' : Operator) : Prop where
  spawn : op'.spawn env = op.spawn env
  branchCount : op'.branchCount = op.branchCount

theorem Like.refl (op : Operator) : op.Like env op := ⟨rfl, rfl⟩

/-- Events of branches leave alone what an operator starts branches with. -/
theorem like_of_relays {op op' : Operator} {k : Nat} {e : Event} {t : Trace}
    (h : (pipe env k).Relays op e t op') : op.Like env op' := by
  cases op with
  | join s =>
      obtain ⟨s', rfl, hBranch⟩ := (Pipe.relays_react rfl).mp h
      obtain ⟨c, rfl, -⟩ := Joining.relays_branchPipe.mp hBranch
      exact ⟨rfl, rfl⟩
  | leftJoin s =>
      obtain ⟨s', rfl, hBranch⟩ := (Pipe.relays_react rfl).mp h
      cases e with
      | row row more =>
          obtain ⟨-, -, -, rfl⟩ | ⟨-, -, -, rfl⟩ | ⟨-, -, -, -, rfl⟩ | ⟨-, -, -, -, -, rfl⟩ :=
            LeftJoining.says_onBranchRow hBranch
          · exact Like.refl _
          · exact ⟨rfl, by simp [Operator.branchCount, LeftJoining.markMatched]⟩
          · exact Like.refl _
          · exact Like.refl _
      | finish =>
          obtain ⟨_, _, _, _, _, _, -, -, -, -, rfl⟩ | ⟨-, _, -, rfl⟩ :=
            LeftJoining.says_onBranchFinish hBranch
          · exact ⟨rfl, rfl⟩
          · exact ⟨rfl, rfl⟩
      | fail error =>
          obtain ⟨-, rfl⟩ := LeftJoining.relays_fail.mp hBranch
          exact Like.refl _
  | setFilter s =>
      obtain ⟨s', rfl, hBranch⟩ := (Pipe.relays_react rfl).mp h
      rw [SetFilter.relays_leftPipe] at hBranch
      cases e with
      | row row more =>
          obtain ⟨rfl, -⟩ := SetFilter.says_onLeftRow hBranch
          exact Like.refl _
      | finish =>
          obtain ⟨-, rfl⟩ := hBranch
          exact ⟨rfl, rfl⟩
      | fail error =>
          obtain ⟨-, rfl⟩ := hBranch
          exact ⟨rfl, rfl⟩
  | _ =>
      obtain ⟨s', rfl, -⟩ := (Pipe.relays_react rfl).mp h
      exact ⟨rfl, rfl⟩

/-- An operator that does not tell its branches apart answers all of them alike. -/
theorem relays_other_branch {op op' : Operator} {j k : Nat} {e : Event} {t : Trace}
    (hCount : op.branchCount = none) (h : (pipe env j).Relays op e t op') :
    (pipe env k).Relays op e t op' := by
  have hReact : op.react env k = op.react env j := by
    cases op with
    | leftJoin s => simp [Operator.branchCount] at hCount
    | _ => rfl
  cases e <;> simpa only [Pipe.Relays, pipe, Pipe.ofReaction, hReact] using h

theorem passes_other_branch {op op' : Operator} {j k : Nat} {heard t : Trace}
    (hCount : op.branchCount = none) (h : (pipe env j).Passes op heard t op') :
    (pipe env k).Passes op heard t op' ∧ op'.branchCount = none := by
  induction h with
  | nil => exact ⟨.nil, hCount⟩
  | snoc prior last ih =>
      exact ⟨ih.1.snoc (relays_other_branch ih.2 last),
        (like_of_relays last).branchCount.trans ih.2⟩

variable {κ : Type} {spawn : Solution → Emission κ}

/-- A branch that is opened is heard as far as it speaks at once. -/
theorem passes_of_openBranch {k : Nat} {op op' : Operator} {branch : Emission κ}
    {opened opened' : List κ} {t : Trace}
    (h : (openBranch env k op branch opened).Says t (op', opened')) :
    ∃ heard child, branch.Says heard child ∧ (pipe env k).Passes op heard t op' ∧
      opened' = opened ++ [child] := by
  simp only [openBranch, Emission.says_bind, Emission.says_pure] at h
  obtain ⟨t₁, ⟨child, _⟩, _, hThrough, ⟨rfl, hEq⟩, rfl⟩ := h
  obtain ⟨rfl, rfl⟩ := Prod.mk.inj hEq
  obtain ⟨heard, hSays, hPasses⟩ := Pipe.passes_of_through hThrough
  exact ⟨heard, child, hSays, by simpa using hPasses, rfl⟩

theorem relays_lead_fail {op op' : Operator} {opened opened' : List κ} {error : QueryError}
    {t : Trace} :
    (lead env spawn).Relays (op, opened) (.fail error) t (op', opened') ↔
      (pipe env 0).Relays op (.fail error) t op' ∧ opened' = opened := by
  simp only [Pipe.Relays, lead, pipe, Pipe.ofReaction, bind_pure_comp, Emission.says_map,
    Prod.mk.injEq]
  constructor
  · rintro ⟨_, hFail, rfl, rfl⟩
    exact ⟨hFail, rfl⟩
  · rintro ⟨hFail, rfl⟩
    exact ⟨op', hFail, rfl, rfl⟩

/-- An operator that does nothing else at the end of its first argument takes it for a branch. -/
theorem relays_lead_finish {op op' : Operator} {opened opened' : List κ} {t : Trace}
    (hLeftJoin : ∀ s, op ≠ .leftJoin s) (hSetFilter : ∀ s, op ≠ .setFilter s) :
    (lead env spawn).Relays (op, opened) .finish t (op', opened') ↔
      (pipe env 0).Relays op .finish t op' ∧ opened' = opened := by
  have hLead : leadFinish env spawn op opened =
      (fun op => (op, opened)) <$> (op.react env 0).onFinish := by
    cases op with
    | leftJoin s => exact absurd rfl (hLeftJoin s)
    | setFilter s => exact absurd rfl (hSetFilter s)
    | _ => simp [leadFinish]
  simp only [Pipe.Relays, lead, pipe, Pipe.ofReaction, hLead, Emission.says_map, Prod.mk.injEq]
  constructor
  · rintro ⟨_, hFinish, rfl, rfl⟩
    exact ⟨hFinish, rfl⟩
  · rintro ⟨hFinish, rfl⟩
    exact ⟨op', hFinish, rfl, rfl⟩

/-- An operator that does nothing else with the rows of its first argument takes it for a branch. -/
theorem relays_lead_row {op op' : Operator} {opened opened' : List κ} {row : Solution}
    {more : Bool} {t : Trace} (hJoin : ∀ s, op ≠ .join s) (hLeftJoin : ∀ s, op ≠ .leftJoin s)
    (hSetFilter : ∀ s, op ≠ .setFilter s) :
    (lead env spawn).Relays (op, opened) (.row row more) t (op', opened') ↔
      (pipe env 0).Relays op (.row row more) t op' ∧ opened' = opened := by
  have hLead : leadRow env spawn op opened row =
      (fun x : Bool × Operator => (x.1, x.2, opened)) <$> (op.react env 0).onRow row := by
    cases op with
    | join s => exact absurd rfl (hJoin s)
    | leftJoin s => exact absurd rfl (hLeftJoin s)
    | setFilter s => exact absurd rfl (hSetFilter s)
    | _ => rw [← bind_pure_comp]; rfl
  simp only [Pipe.Relays, lead, pipe, Pipe.ofReaction, hLead, Emission.says_map, Prod.mk.injEq]
  constructor
  · rintro ⟨⟨_, _⟩, hRow, rfl, rfl, rfl⟩
    exact ⟨hRow, rfl⟩
  · rintro ⟨hRow, rfl⟩
    exact ⟨(more, op'), hRow, rfl, rfl, rfl⟩

/-- A join refuses a left row once it has stopped, and opens a branch for it before. -/
theorem relays_lead_join_row {s : Joining} {op' : Operator} {opened opened' : List κ}
    {row : Solution} {more : Bool} {t : Trace} :
    (lead env spawn).Relays (.join s, opened) (.row row more) t (op', opened') ↔
      (s.completion.stopped = true ∧ more = false ∧ t = [] ∧ op' = .join s ∧ opened' = opened) ∨
      (s.completion.stopped = false ∧ more = true ∧
        (openBranch env 0 (.join { s with completion := s.completion.begin }) (spawn row)
          opened).Says t (op', opened')) := by
  change (leadRow env spawn (.join s) opened row).Says _ _ ↔ _
  rw [leadRow, Emission.says_bind_silent fun _ _ => Joining.says_openBranch]
  cases hStopped : s.completion.stopped with
  | true => simp [and_left_comm]
  | false =>
      simp only [Bool.false_eq_true, ↓reduceIte, bind_pure_comp, Emission.says_map, Prod.mk.injEq,
        false_and, true_and, false_or]
      constructor
      · rintro ⟨_, hOpen, rfl, rfl⟩
        exact ⟨rfl, hOpen⟩
      · rintro ⟨rfl, hOpen⟩
        exact ⟨(op', opened'), hOpen, rfl, rfl⟩

/-- So does a left join, which also notes the left row. -/
theorem relays_lead_leftJoin_row {s : LeftJoining} {op' : Operator} {opened opened' : List κ}
    {row : Solution} {more : Bool} {t : Trace} :
    (lead env spawn).Relays (.leftJoin s, opened) (.row row more) t (op', opened') ↔
      (s.completion.stopped = true ∧ more = false ∧ t = [] ∧ op' = .leftJoin s ∧
        opened' = opened) ∨
      (s.completion.stopped = false ∧ more = true ∧
        (openBranch env s.branches.length (.leftJoin { s with
          completion := s.completion.begin, branches := s.branches ++ [⟨row, true⟩] }) (spawn row)
          opened).Says t (op', opened')) := by
  change (leadRow env spawn (.leftJoin s) opened row).Says _ _ ↔ _
  rw [leadRow, Emission.says_bind_silent fun _ _ => LeftJoining.says_openBranch]
  cases hStopped : s.completion.stopped with
  | true => simp [and_left_comm]
  | false =>
      simp only [Bool.false_eq_true, ↓reduceIte, bind_pure_comp, Emission.says_map, Prod.mk.injEq,
        false_and, true_and, false_or]
      constructor
      · rintro ⟨_, hOpen, rfl, rfl⟩
        exact ⟨rfl, hOpen⟩
      · rintro ⟨rfl, hOpen⟩
        exact ⟨(op', opened'), hOpen, rfl, rfl⟩

theorem relays_lead_leftJoin_finish {s : LeftJoining} {op' : Operator} {opened opened' : List κ}
    {t : Trace} :
    (lead env spawn).Relays (.leftJoin s, opened) .finish t (op', opened') ↔
      ∃ c, s.completion.finish.Says t c ∧ op' = .leftJoin { s with completion := c } ∧
        opened' = opened := by
  simp only [Pipe.Relays, lead, leadFinish, bind_pure_comp, Emission.says_map, Prod.mk.injEq]

/-- An operator that filters by its first argument collects the rows of it. -/
theorem relays_lead_setFilter_row {s : SetFilter} {op' : Operator} {opened opened' : List κ}
    {row : Solution} {more : Bool} {t : Trace} :
    (lead env spawn).Relays (.setFilter s, opened) (.row row more) t (op', opened') ↔
      ∃ s', (s.onRightRow row).Says t (more, s') ∧ op' = .setFilter s' ∧ opened' = opened := by
  simp only [Pipe.Relays, lead, leadRow, Emission.says_bind, Emission.says_pure]
  constructor
  · rintro ⟨t₁, ⟨reply, s'⟩, t₂, hRow, ⟨rfl, hEq⟩, rfl⟩
    simp only [Prod.mk.injEq] at hEq
    obtain ⟨rfl, rfl, rfl⟩ := hEq
    exact ⟨s', by simpa using hRow, rfl, rfl⟩
  · rintro ⟨s', hRow, rfl, rfl⟩
    exact ⟨t, (more, s'), [], hRow, ⟨rfl, rfl⟩, by simp⟩

/-- With the end of its first argument it opens its only branch. -/
theorem relays_lead_setFilter_finish {s : SetFilter} {op' : Operator} {opened opened' : List κ}
    {t : Trace} :
    (lead env spawn).Relays (.setFilter s, opened) .finish t (op', opened') ↔
      (openBranch env 0 (.setFilter s) (spawn s.seed) opened).Says t (op', opened') := Iff.rfl

/-- An event of the first argument either opens nothing, or opens one branch, which is then heard
under the next number. -/
theorem hears_of_relays {op op' : Operator} {opened opened' : List κ} {e : Event} {t : Trace}
    {n : Nat} (hCounts : op.Counts n)
    (h : (lead env spawn).Relays (op, opened) e t (op', opened')) :
    (op.Hears env e t op' [] ∧ opened' = opened) ∨
    (∃ op₁ seed heard child, op.Hears env e [] op₁ [seed] ∧ (spawn seed).Says heard child ∧
      (pipe env n).Passes op₁ heard t op' ∧ opened' = opened ++ [child]) := by
  cases e with
  | fail error =>
      obtain ⟨hFail, rfl⟩ := relays_lead_fail.mp h
      exact .inl ⟨relays_lead_fail.mpr ⟨hFail, rfl⟩, rfl⟩
  | finish =>
      cases op with
      | leftJoin s =>
          obtain ⟨c, hFinish, rfl, rfl⟩ := relays_lead_leftJoin_finish.mp h
          exact .inl ⟨relays_lead_leftJoin_finish.mpr ⟨c, hFinish, rfl, rfl⟩, rfl⟩
      | setFilter s =>
          obtain ⟨heard, child, hSays, hPasses, rfl⟩ := passes_of_openBranch (relays_lead_setFilter_finish.mp h)
          exact .inr ⟨.setFilter s, s.seed, heard, child, ⟨rfl, rfl⟩, hSays,
            (passes_other_branch rfl hPasses).1, rfl⟩
      | _ =>
          obtain ⟨hFinish, rfl⟩ := (relays_lead_finish (by simp) (by simp)).mp h
          exact .inl ⟨(relays_lead_finish (by simp) (by simp)).mpr ⟨hFinish, rfl⟩, rfl⟩
  | row row more =>
      cases op with
      | join s =>
          obtain ⟨hStopped, rfl, rfl, rfl, rfl⟩ | ⟨hOpen, rfl, hBranch⟩ :=
            relays_lead_join_row.mp h
          · exact .inl ⟨relays_lead_join_row.mpr (.inl ⟨hStopped, rfl, rfl, rfl, rfl⟩), rfl⟩
          · obtain ⟨heard, child, hSays, hPasses, rfl⟩ := passes_of_openBranch hBranch
            exact .inr ⟨_, row, heard, child,
              relays_lead_join_row.mpr (.inr ⟨hOpen, rfl, rfl, rfl⟩), hSays,
              (passes_other_branch rfl hPasses).1, rfl⟩
      | leftJoin s =>
          obtain ⟨hStopped, rfl, rfl, rfl, rfl⟩ | ⟨hOpen, rfl, hBranch⟩ :=
            relays_lead_leftJoin_row.mp h
          · exact .inl ⟨relays_lead_leftJoin_row.mpr (.inl ⟨hStopped, rfl, rfl, rfl, rfl⟩), rfl⟩
          · obtain ⟨heard, child, hSays, hPasses, rfl⟩ := passes_of_openBranch hBranch
            rw [hCounts _ rfl] at hPasses
            exact .inr ⟨_, row, heard, child,
              relays_lead_leftJoin_row.mpr (.inr ⟨hOpen, rfl, rfl, rfl⟩), hSays, hPasses, rfl⟩
      | setFilter s =>
          obtain ⟨s', hRow, rfl, rfl⟩ := relays_lead_setFilter_row.mp h
          exact .inl ⟨relays_lead_setFilter_row.mpr ⟨s', hRow, rfl, rfl⟩, rfl⟩
      | _ =>
          obtain ⟨hRow, rfl⟩ := (relays_lead_row (by simp) (by simp) (by simp)).mp h
          exact .inl ⟨(relays_lead_row (by simp) (by simp) (by simp)).mpr ⟨hRow, rfl⟩, rfl⟩

/-- A branch that is only noted says nothing. -/
theorem says_openBranch_done {k : Nat} {op op' : Operator} {seed : κ} {opened opened' : List κ}
    {t : Trace} :
    (openBranch env k op (.done seed) opened).Says t (op', opened') ↔
      t = [] ∧ op' = op ∧ opened' = opened ++ [seed] := by
  rw [← Prod.mk.injEq]
  exact Iff.rfl

/-- What an operator hears of its first argument leaves alone what it starts branches with, and it
counts the branches that it opens. -/
theorem spawn_of_hears {op op' : Operator} {e : Event} {t : Trace} {seeds : List Solution}
    (h : op.Hears env e t op' seeds) :
    op'.spawn env = op.spawn env ∧ ∀ n, op.Counts n → op'.Counts (n + seeds.length) := by
  have hLike : ∀ {op' : Operator}, op.Like env op' →
      op'.spawn env = op.spawn env ∧ ∀ n, op.Counts n → op'.Counts n := by
    intro op' like
    exact ⟨like.spawn, fun n hCounts m hSome => hCounts m (like.branchCount ▸ hSome)⟩
  cases e with
  | fail error =>
      obtain ⟨hFail, rfl⟩ := relays_lead_fail.mp h
      exact hLike (like_of_relays hFail)
  | finish =>
      cases op with
      | leftJoin s =>
          obtain ⟨c, -, rfl, rfl⟩ := relays_lead_leftJoin_finish.mp h
          exact hLike ⟨rfl, rfl⟩
      | setFilter s =>
          obtain ⟨-, rfl, rfl⟩ := says_openBranch_done.mp (relays_lead_setFilter_finish.mp h)
          exact ⟨rfl, fun _ _ _ hSome => by simp [Operator.branchCount] at hSome⟩
      | _ =>
          obtain ⟨hFinish, rfl⟩ := (relays_lead_finish (by simp) (by simp)).mp h
          exact hLike (like_of_relays hFinish)
  | row row more =>
      cases op with
      | join s =>
          obtain ⟨-, -, -, rfl, rfl⟩ | ⟨-, -, hBranch⟩ := relays_lead_join_row.mp h
          · exact hLike (Like.refl _)
          · obtain ⟨-, rfl, rfl⟩ := says_openBranch_done.mp hBranch
            exact ⟨rfl, fun _ _ _ hSome => by simp [Operator.branchCount] at hSome⟩
      | leftJoin s =>
          obtain ⟨-, -, -, rfl, rfl⟩ | ⟨-, -, hBranch⟩ := relays_lead_leftJoin_row.mp h
          · exact hLike (Like.refl _)
          · obtain ⟨-, rfl, rfl⟩ := says_openBranch_done.mp hBranch
            refine ⟨rfl, fun n hCounts m hSome => ?_⟩
            have hLength : s.branches.length = n := hCounts _ rfl
            simp only [Operator.branchCount, List.length_append, Option.some.injEq] at hSome
            rw [← hSome, hLength]
            rfl
      | setFilter s =>
          obtain ⟨s', hRow, rfl, rfl⟩ := relays_lead_setFilter_row.mp h
          obtain ⟨right, rfl, -⟩ := SetFilter.says_onRightRow hRow
          exact hLike ⟨rfl, rfl⟩
      | _ =>
          obtain ⟨hRow, rfl⟩ := (relays_lead_row (by simp) (by simp) (by simp)).mp h
          exact hLike (like_of_relays hRow)

/-- Whether an operator starts arguments on its own. -/
def opens : Operator → Bool
  | .join _ | .leftJoin _ | .setFilter _ => true
  | _ => false

/-- An operator that starts no arguments takes its first argument for a branch. -/
theorem hears_iff {op op' : Operator} {e : Event} {t : Trace} {seeds : List Solution}
    (hOpens : op.opens = false) :
    op.Hears env e t op' seeds ↔ (pipe env 0).Relays op e t op' ∧ seeds = [] := by
  have hNot : (∀ s, op ≠ .join s) ∧ (∀ s, op ≠ .leftJoin s) ∧ ∀ s, op ≠ .setFilter s := by
    refine ⟨?_, ?_, ?_⟩
    all_goals
      rintro s rfl
      simp [opens] at hOpens
  cases e with
  | row row more => exact relays_lead_row hNot.1 hNot.2.1 hNot.2.2
  | finish => exact relays_lead_finish hNot.2.1 hNot.2.2
  | fail error => exact relays_lead_fail

namespace Weaves

variable {start op op' : Operator} {opened strands : List Strand} {lead said : Trace}

/-- A weave starts its branches as it did at first, and counts them. -/
theorem spawn_eq (weave : Weaves env start opened op lead strands said) :
    op.spawn env = start.spawn env ∧ (start.Counts opened.length → op.Counts strands.length) := by
  induction weave with
  | nil => exact ⟨rfl, id⟩
  | lead prior last ih =>
      obtain ⟨hSpawn, hCounts⟩ := spawn_of_hears last
      refine ⟨hSpawn.trans ih.1, fun hStart => ?_⟩
      rw [List.length_append, List.length_map]
      exact hCounts _ (ih.2 hStart)
  | branch prior hGet last ih =>
      have like := like_of_relays last
      refine ⟨like.spawn.trans ih.1, fun hStart m hSome => ?_⟩
      rw [List.length_set]
      exact ih.2 hStart m (like.branchCount ▸ hSome)

/-- What a branch goes on to say extends its strand. -/
theorem passes_branch {k : Nat} {strand : Strand} {heard t : Trace}
    (weave : Weaves env start opened op lead strands said) (hGet : strands[k]? = some strand)
    (passes : (pipe env k).Passes op heard t op') :
    Weaves env start opened op' lead
      (strands.set k (strand.say heard)) (said ++ t) := by
  induction passes with
  | nil =>
      obtain ⟨hLength, rfl⟩ := List.getElem?_eq_some_iff.mp hGet
      simpa [Strand.say_nil] using weave
  | snoc prior last ih =>
      have hLength : k < strands.length := (List.getElem?_eq_some_iff.mp hGet).1
      have next := ih.branch (List.getElem?_set_self hLength) last
      simpa [Strand.say_say, List.append_assoc] using next

/-- An operator whose state is kept in the form `wrap`, and that never starts an argument, hears no
more arguments than were open at first. -/
theorem wrapped {σ : Type} {p : Pipe σ} {wrap : σ → Operator} {first : σ}
    (hOpens : ∀ s, (wrap s).opens = false)
    (hReact : ∀ k s, (wrap s).react env k = p.react s wrap)
    (weave : Weaves env (wrap first) opened op lead strands said) :
    (∃ s, op = wrap s) ∧ strands.length = opened.length := by
  have hBranch : ∀ {k s e t op'}, (pipe env k).Relays (wrap s) e t op' → ∃ s, op' = wrap s := by
    intro k s e t op' h
    obtain ⟨s', rfl, -⟩ := (Pipe.relays_react (hReact k s)).mp h
    exact ⟨s', rfl⟩
  induction weave with
  | nil => exact ⟨⟨first, rfl⟩, rfl⟩
  | lead prior last ih =>
      obtain ⟨⟨s, rfl⟩, hLength⟩ := ih
      obtain ⟨hRelays, rfl⟩ := (hears_iff (hOpens s)).mp last
      exact ⟨hBranch hRelays, by simpa using hLength⟩
  | branch prior hGet last ih =>
      obtain ⟨⟨s, rfl⟩, hLength⟩ := ih
      exact ⟨hBranch last, by rw [List.length_set, hLength]⟩

/-- What its first argument goes on to say is answered like what a branch says. -/
theorem passes_first {σ : Type} {p : Pipe σ} {wrap : σ → Operator} {first : σ} {k : Nat}
    {heard t : Trace} (hOpens : ∀ s, (wrap s).opens = false)
    (hReact : ∀ k s, (wrap s).react env k = p.react s wrap)
    (weave : Weaves env (wrap first) opened op lead strands said)
    (passes : (pipe env k).Passes op heard t op') :
    Weaves env (wrap first) opened op' (lead ++ heard) strands (said ++ t) := by
  induction passes with
  | nil => simpa using weave
  | snoc prior last ih =>
      obtain ⟨⟨s, rfl⟩, -⟩ := ih.wrapped hOpens hReact
      have hFirst := (Pipe.relays_react (hReact 0 s)).mpr ((Pipe.relays_react (hReact k s)).mp last)
      have next := ih.lead ((hears_iff (hOpens s)).mpr ⟨hFirst, rfl⟩)
      simpa [List.append_assoc] using next

/-- Without another argument, it hears nothing but its first. -/
theorem passes {σ : Type} {p : Pipe σ} {wrap : σ → Operator} {first : σ}
    (hOpens : ∀ s, (wrap s).opens = false)
    (hReact : ∀ k s, (wrap s).react env k = p.react s wrap)
    (weave : Weaves env (wrap first) [] op lead strands said) :
    strands = [] ∧ ∃ s, op = wrap s ∧ p.Passes first lead said s := by
  induction weave with
  | nil => exact ⟨rfl, first, rfl, .nil⟩
  | lead prior last ih =>
      obtain ⟨rfl, s, rfl, hPasses⟩ := ih
      obtain ⟨hRelays, rfl⟩ := (hears_iff (hOpens s)).mp last
      obtain ⟨s', rfl, hAnswer⟩ := (Pipe.relays_react (hReact 0 s)).mp hRelays
      exact ⟨rfl, s', rfl, hPasses.snoc hAnswer⟩
  | branch prior hGet last ih =>
      obtain ⟨rfl, -⟩ := ih
      simp at hGet

end Weaves

end Operator

end SolutionFlow
