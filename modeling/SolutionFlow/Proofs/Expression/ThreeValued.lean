import Mathlib.Data.Set.Insert
import SolutionFlow.Proofs.Expression.QueryTime

/-! Conditions in three-valued logic. On a row an expression is true, or false, or neither, if it ends in a fault
of type. Conjunction, disjunction and negation combine these statuses by the strong truth tables, in which
a missing status matters only where the other one does not settle the answer. It makes no difference that
the right operand is evaluated after the left one, or not at all. -/
namespace SolutionFlow

/-- The time of the query that one who asks now is told. -/
def Clock.present (clock : Clock) : Nat := clock.queryTime.getD clock.time

/-- What is done in time, after which one who asks for the time of the query is told the same as before. -/
def Timed.Lasting {α : Type} (act : Timed α) : Prop := ∀ clock, (act clock).2.present = clock.present

namespace Timed.Lasting

variable {ε α β : Type}

theorem pure (value : α) : Lasting (Pure.pure value) := fun _ => rfl

theorem bind {act : Timed α} (h : Lasting act) {f : α → Timed β} (hNext : ∀ value, Lasting (f value)) :
    Lasting (act >>= f) :=
  fun clock => (hNext (act clock).1 (act clock).2).trans (h clock)

theorem known (outcome : Except ε α) : Lasting (liftM outcome : ExceptT ε Timed α).run := by
  cases outcome <;> exact fun _ => rfl

/-- What follows in case of success only. -/
theorem andThen {x : ExceptT ε Timed α} (h : Lasting x.run) {f : α → ExceptT ε Timed β}
    (hNext : ∀ value, Lasting (f value).run) : Lasting (x >>= f).run := by
  refine h.bind (f := ExceptT.bindCont f) ?_
  rintro (error | value)
  · exact .pure (Except.error error)
  · exact hNext value

end Timed.Lasting

/-- While the clock shows `now`, what is done in time comes to what it comes to with that time put in. -/
theorem Timed.Dated.fst_eq {α : Type} {act act' : Timed α} {now : Nat} (h : Dated now act act')
    (hLasting : act.Lasting) {clock : Clock} (hTime : clock.present = now) (other : Clock) :
    (act clock).1 = (act' other).1 := by
  have hShows : (act clock).2.Shows now := by
    rw [← hTime, ← hLasting clock]
    exact Clock.shows_present _
  exact (congrArg Prod.fst ((h clock).2 hShows other)).symm

/-- How it stands with the truth of an expression. -/
inductive TruthStatus where
  | yes
  | no
  | unknown
deriving DecidableEq

namespace TruthStatus

/-- False if an operand is, true if both are. -/
protected def and : TruthStatus → TruthStatus → TruthStatus
  | .no, _ | _, .no => .no
  | .yes, .yes => .yes
  | _, _ => .unknown

/-- True if an operand is, false if both are. -/
protected def or : TruthStatus → TruthStatus → TruthStatus
  | .yes, _ | _, .yes => .yes
  | .no, .no => .no
  | _, _ => .unknown

protected def not : TruthStatus → TruthStatus
  | .yes => .no
  | .no => .yes
  | .unknown => .unknown

variable (a b c : TruthStatus)

theorem and_comm : a.and b = b.and a := by cases a <;> cases b <;> rfl

theorem or_comm : a.or b = b.or a := by cases a <;> cases b <;> rfl

theorem and_assoc : (a.and b).and c = a.and (b.and c) := by cases a <;> cases b <;> cases c <;> rfl

theorem or_assoc : (a.or b).or c = a.or (b.or c) := by cases a <;> cases b <;> cases c <;> rfl

theorem and_or_distrib : a.and (b.or c) = (a.and b).or (a.and c) := by
  cases a <;> cases b <;> cases c <;> rfl

theorem or_and_distrib : a.or (b.and c) = (a.or b).and (a.or c) := by
  cases a <;> cases b <;> cases c <;> rfl

theorem not_and : (a.and b).not = a.not.or b.not := by cases a <;> cases b <;> rfl

theorem not_or : (a.or b).not = a.not.and b.not := by cases a <;> cases b <;> rfl

theorem not_not : a.not.not = a := by cases a <;> rfl

theorem and_eq_yes_iff {a b : TruthStatus} : a.and b = .yes ↔ a = .yes ∧ b = .yes := by
  cases a <;> cases b <;> decide

end TruthStatus

namespace Truth

/-- The status that an outcome tells. A failed query tells none. -/
def status? : Truth → Option TruthStatus
  | .ok true => some .yes
  | .ok false => some .no
  | .error (.type _) => some .unknown
  | .error (.query _) => none

variable {left right : Truth} {a b : TruthStatus}

theorem status?_and (hLeft : left.status? = some a) (hRight : right.status? = some b) :
    (left.and right).status? = some (a.and b) := by
  rcases left with (_ | _) | (_ | _) <;> rcases right with (_ | _) | (_ | _) <;>
    simp [status?] at hLeft hRight <;> subst hLeft hRight <;> rfl

theorem status?_or (hLeft : left.status? = some a) (hRight : right.status? = some b) :
    (left.or right).status? = some (a.or b) := by
  rcases left with (_ | _) | (_ | _) <;> rcases right with (_ | _) | (_ | _) <;>
    simp [status?] at hLeft hRight <;> subst hLeft hRight <;> rfl

theorem status?_not {outcome : Truth} (h : outcome.status? = some a) :
    Truth.status? (outcome.map (! ·)) = some a.not := by
  rcases outcome with (_ | _) | (_ | _) <;> simp [status?] at h <;> subst h <;> rfl

theorem status?_of_not_failed {outcome : Truth} (h : ¬Failed outcome) :
    ∃ s, outcome.status? = some s := by
  rcases outcome with (fault | error) | (_ | _)
  · exact ⟨.unknown, rfl⟩
  · exact absurd (failed_query error) h
  · exact ⟨.no, rfl⟩
  · exact ⟨.yes, rfl⟩

end Truth

namespace Expr

section

variable (around : Surroundings) (row : Solution) (clock : Clock)

/-- The status of an expression on a row, if it is evaluated beginning at this clock and no query fails. -/
def statusAt (x : Expr) : Option TruthStatus := Truth.status? ((x.holds around row).run clock).1

/-- The clock that the evaluation leaves behind. -/
def clockAfter (x : Expr) : Clock := ((x.holds around row).run clock).2

end

section

variable {around : Surroundings} {row : Solution} {clock : Clock} {x arg left right : Expr}
  {a b s : TruthStatus}

theorem truthOf_boolean (x : Evaluating Bool) (f : Bool → Bool) :
    truthOf (do return Term.boolean (f (← x))) = f <$> x := by
  simp only [truthOf, bind_assoc, pure_bind, Term.truth]
  exact bind_pure_comp f x

theorem holds_not : (Expr.not arg).holds around row = (! ·) <$> arg.holds around row :=
  truthOf_boolean _ _

theorem holds_and : (Expr.and left right).holds around row =
    both (left.holds around row) (right.holds around row) :=
  (truthOf_boolean _ id).trans (id_map _)

theorem holds_or : (Expr.or left right).holds around row =
    any (left.holds around row) (right.holds around row) :=
  (truthOf_boolean _ id).trans (id_map _)

/-- A negation has the opposite status. -/
theorem statusAt_not (h : arg.statusAt around row clock = some a) :
    (Expr.not arg).statusAt around row clock = some a.not := by
  rw [statusAt, holds_not, ExceptT.run_map]
  exact Truth.status?_not h

/-- A conjunction has the conjunction of the statuses, though the right operand is evaluated behind the left
one, or not at all. -/
theorem statusAt_and (hLeft : left.statusAt around row clock = some a)
    (hRight : right.statusAt around row (left.clockAfter around row clock) = some b) :
    (Expr.and left right).statusAt around row clock = some (a.and b) := by
  rw [statusAt, holds_and, Accounts.run_both]
  exact Truth.status?_and hLeft hRight

theorem statusAt_or (hLeft : left.statusAt around row clock = some a)
    (hRight : right.statusAt around row (left.clockAfter around row clock) = some b) :
    (Expr.or left right).statusAt around row clock = some (a.or b) := by
  rw [statusAt, holds_or, Accounts.run_any]
  exact Truth.status?_or hLeft hRight

theorem clockAfter_not : (Expr.not arg).clockAfter around row clock = arg.clockAfter around row clock := by
  rw [clockAfter, holds_not, ExceptT.run_map]
  rfl

/-- A conjunction leaves the clock of the operand that is evaluated last. -/
theorem clockAfter_and (around : Surroundings) (row : Solution) (clock : Clock) (left right : Expr) :
    (Expr.and left right).clockAfter around row clock = left.clockAfter around row clock ∨
      (Expr.and left right).clockAfter around row clock =
        right.clockAfter around row (left.clockAfter around row clock) := by
  simp only [clockAfter, holds_and]
  rw [both, ExceptT.run_mk, Timed.bind_apply]
  rcases ((left.holds around row).run clock).1 with _ | (_ | _)
  · exact .inr rfl
  · exact .inl rfl
  · exact .inr rfl

theorem clockAfter_or (around : Surroundings) (row : Solution) (clock : Clock) (left right : Expr) :
    (Expr.or left right).clockAfter around row clock = left.clockAfter around row clock ∨
      (Expr.or left right).clockAfter around row clock =
        right.clockAfter around row (left.clockAfter around row clock) := by
  simp only [clockAfter, holds_or]
  rw [any, ExceptT.run_mk, Timed.bind_apply]
  rcases ((left.holds around row).run clock).1 with _ | (_ | _)
  · exact .inr rfl
  · exact .inr rfl
  · exact .inl rfl

end

/-- Beginning at any of these clocks, the expression has the status on the row, and leaves one of these clocks
behind. All clocks may be meant, or those that show one time of the query. -/
def Stands (clocks : Set Clock) (around : Surroundings) (row : Solution) (x : Expr) (s : TruthStatus) :
    Prop :=
  ∀ clock ∈ clocks, x.statusAt around row clock = some s ∧ x.clockAfter around row clock ∈ clocks

/-- The parts of an expression that are no conjunctions, disjunctions or negations, below nothing else. -/
def atoms : Expr → List Expr
  | .not arg => arg.atoms
  | .and left right | .or left right => left.atoms ++ right.atoms
  | x => [x]

/-- The status of an expression by the truth tables, from those of its atoms. -/
def status (value : Expr → TruthStatus) : Expr → TruthStatus
  | .not arg => (arg.status value).not
  | .and left right => (left.status value).and (right.status value)
  | .or left right => (left.status value).or (right.status value)
  | x => value x

section

variable {clocks : Set Clock} {around : Surroundings} {row : Solution} {x arg left right : Expr}
  {a b s : TruthStatus} {value : Expr → TruthStatus}

theorem Stands.not (h : arg.Stands clocks around row a) :
    (Expr.not arg).Stands clocks around row a.not := by
  intro clock hClock
  rw [clockAfter_not]
  exact ⟨statusAt_not (h clock hClock).1, (h clock hClock).2⟩

/-- What two operands are combined to has a status, if it has this status wherever they have theirs one after
the other, and leaves the clock of one of them. -/
theorem Stands.combine (hLeft : left.Stands clocks around row a) (hRight : right.Stands clocks around row b)
    (hStatus : ∀ {clock}, left.statusAt around row clock = some a →
      right.statusAt around row (left.clockAfter around row clock) = some b →
        x.statusAt around row clock = some s)
    (hAfter : ∀ clock, x.clockAfter around row clock = left.clockAfter around row clock ∨
      x.clockAfter around row clock = right.clockAfter around row (left.clockAfter around row clock)) :
    x.Stands clocks around row s := by
  intro clock hClock
  obtain ⟨hFirst, hMiddle⟩ := hLeft clock hClock
  obtain ⟨hSecond, hLast⟩ := hRight _ hMiddle
  refine ⟨hStatus hFirst hSecond, ?_⟩
  obtain hSame | hSame := hAfter clock
  · exact hSame ▸ hMiddle
  · exact hSame ▸ hLast

theorem Stands.and (hLeft : left.Stands clocks around row a) (hRight : right.Stands clocks around row b) :
    (Expr.and left right).Stands clocks around row (a.and b) :=
  hLeft.combine hRight statusAt_and fun clock => clockAfter_and around row clock left right

theorem Stands.or (hLeft : left.Stands clocks around row a) (hRight : right.Stands clocks around row b) :
    (Expr.or left right).Stands clocks around row (a.or b) :=
  hLeft.combine hRight statusAt_or fun clock => clockAfter_or around row clock left right

/-- However deep conjunctions, disjunctions and negations are nested, an expression has the status that the
truth tables give it. -/
theorem stands_status : (x : Expr) →
    (∀ atom ∈ x.atoms, atom.Stands clocks around row (value atom)) →
      x.Stands clocks around row (x.status value)
  | .not arg, h => (arg.stands_status h).not
  | .and left right, h =>
    (left.stands_status fun atom hMem => h atom (List.mem_append_left _ hMem)).and
      (right.stands_status fun atom hMem => h atom (List.mem_append_right _ hMem))
  | .or left right, h =>
    (left.stands_status fun atom hMem => h atom (List.mem_append_left _ hMem)).or
      (right.stands_status fun atom hMem => h atom (List.mem_append_right _ hMem))
  | .var _, h | .constant _, h | .bound _, h | .compare .., h | .arith .., h | .str _, h | .now, h
  | .aggregate _, h | .exists _, h => h _ (List.mem_singleton_self _)

theorem lasting_truthOf {value : Evaluating Term} (h : Timed.Lasting value.run) :
    Timed.Lasting (truthOf value).run :=
  h.andThen fun term => .known term.truth

theorem lasting_both {first second : Evaluating Bool} (hFirst : Timed.Lasting first.run)
    (hSecond : Timed.Lasting second.run) : Timed.Lasting (both first second).run := by
  refine hFirst.bind fun l => ?_
  rcases l with error | (_ | _)
  · exact hSecond.bind fun r => .pure _
  · exact .pure _
  · exact hSecond.bind fun r => .pure _

theorem lasting_any {first second : Evaluating Bool} (hFirst : Timed.Lasting first.run)
    (hSecond : Timed.Lasting second.run) : Timed.Lasting (any first second).run := by
  refine hFirst.bind fun l => ?_
  rcases l with error | (_ | _)
  · exact hSecond.bind fun r => .pure _
  · exact hSecond.bind fun r => .pure _
  · exact .pure _

/-- An expression without nested queries leaves the answer to NOW as it is, though it may be the first one who
asks. -/
theorem lasting_eval :
    (x : Expr) → x.ExistsFree → Timed.Lasting (x.eval around row).run
  | .var name, _ => by
    simp only [eval]
    cases row.get? name with
    | some term => exact .pure (Except.ok term)
    | none => exact .pure (Except.error (EvalError.type (.unbound name)))
  | .constant term, _ => .pure (Except.ok term)
  | .bound name, _ => .pure (Except.ok (Term.boolean (row.binds name)))
  | .not arg, hFree => (lasting_truthOf (arg.lasting_eval hFree)).andThen fun _ => .pure _
  | .and left right, hFree =>
    (lasting_both (lasting_truthOf (left.lasting_eval hFree.1))
      (lasting_truthOf (right.lasting_eval hFree.2))).andThen fun _ => .pure _
  | .or left right, hFree =>
    (lasting_any (lasting_truthOf (left.lasting_eval hFree.1))
      (lasting_truthOf (right.lasting_eval hFree.2))).andThen fun _ => .pure _
  | .compare op left right, hFree =>
    (left.lasting_eval hFree.1).andThen fun l => (right.lasting_eval hFree.2).andThen fun r =>
      Timed.Lasting.andThen (.known (op.apply l r)) fun _ => .pure _
  | .arith op left right, hFree =>
    (left.lasting_eval hFree.1).andThen fun l => (right.lasting_eval hFree.2).andThen fun r =>
      .known (op.apply l r)
  | .str arg, hFree =>
    (arg.lasting_eval hFree).andThen fun term => by
      cases term <;> exact .pure _
  | .now, _ => fun clock => by
    obtain ⟨time, _ | taken⟩ := clock <;> rfl
  | .aggregate _, _ => .pure _
  | .exists _, hFree => absurd hFree id

/-- On all clocks that show the same time, an expression without nested queries has one status. -/
theorem exists_stands_of_existsFree (around : Surroundings) (hFree : x.ExistsFree) (now : Nat) (row : Solution) :
    ∃ s, x.Stands {clock | clock.present = now} around row s := by
  have hDated : Timed.Dated now (x.holds around row).run ((x.asOf now).holds around row).run :=
    dated_holds hFree
  have hLasting : Timed.Lasting (x.holds around row).run := lasting_truthOf (x.lasting_eval hFree)
  have hSame {clock : Clock} (hTime : clock.present = now) :
      ((x.holds around row).run clock).1 = x.outcomeAt now row :=
    (hDated.fst_eq hLasting hTime clock).trans (run_holds_asOf hFree clock)
  have hCalm : ¬Failed (x.outcomeAt now row) := by
    rw [← @hSame ⟨now, some now⟩ rfl]
    exact not_failed_holds hFree _
  obtain ⟨s, hStatus⟩ := Truth.status?_of_not_failed hCalm
  refine ⟨s, fun clock hClock => ⟨?_, (hLasting clock).trans hClock⟩⟩
  rw [statusAt, hSame hClock, hStatus]

/-- It is the one that it has for the first one who asks for the time. -/
theorem stands_of_existsFree (hFree : x.ExistsFree) (now : Nat) (row : Solution) :
    x.Stands {clock | clock.present = now} around row
      ((x.statusAt around row (.starting now)).getD .unknown) := by
  obtain ⟨s, hStands⟩ := exists_stands_of_existsFree around hFree now row
  rw [(hStands (.starting now) rfl).1]
  exact hStands

end

/-- One expression comes of another by laws of the truth tables, applied anywhere in it and any number of
times. -/
inductive Rewrites : Expr → Expr → Prop where
  | refl (x : Expr) : Rewrites x x
  | symm {x y : Expr} (h : Rewrites x y) : Rewrites y x
  | trans {x y z : Expr} (h : Rewrites x y) (hNext : Rewrites y z) : Rewrites x z
  | not {x y : Expr} (h : Rewrites x y) : Rewrites (.not x) (.not y)
  | and {x x' y y' : Expr} (h : Rewrites x y) (h' : Rewrites x' y') : Rewrites (.and x x') (.and y y')
  | or {x x' y y' : Expr} (h : Rewrites x y) (h' : Rewrites x' y') : Rewrites (.or x x') (.or y y')
  | and_comm (x y : Expr) : Rewrites (.and x y) (.and y x)
  | or_comm (x y : Expr) : Rewrites (.or x y) (.or y x)
  | and_assoc (x y z : Expr) : Rewrites (.and (.and x y) z) (.and x (.and y z))
  | or_assoc (x y z : Expr) : Rewrites (.or (.or x y) z) (.or x (.or y z))
  | and_or (x y z : Expr) : Rewrites (.and x (.or y z)) (.or (.and x y) (.and x z))
  | or_and (x y z : Expr) : Rewrites (.or x (.and y z)) (.and (.or x y) (.or x z))
  | not_and (x y : Expr) : Rewrites (.not (.and x y)) (.or (.not x) (.not y))
  | not_or (x y : Expr) : Rewrites (.not (.or x y)) (.and (.not x) (.not y))
  | not_not (x : Expr) : Rewrites (.not (.not x)) x

namespace Rewrites

variable {x y : Expr}

theorem status_eq (h : x.Rewrites y) (value : Expr → TruthStatus) : x.status value = y.status value := by
  induction h with
  | refl => rfl
  | symm _ ih => exact ih.symm
  | trans _ _ ih ihNext => exact ih.trans ihNext
  | not _ ih => exact congrArg TruthStatus.not ih
  | and _ _ ih ih' => exact congrArg₂ TruthStatus.and ih ih'
  | or _ _ ih ih' => exact congrArg₂ TruthStatus.or ih ih'
  | and_comm => exact TruthStatus.and_comm _ _
  | or_comm => exact TruthStatus.or_comm _ _
  | and_assoc => exact TruthStatus.and_assoc _ _ _
  | or_assoc => exact TruthStatus.or_assoc _ _ _
  | and_or => exact TruthStatus.and_or_distrib _ _ _
  | or_and => exact TruthStatus.or_and_distrib _ _ _
  | not_and => exact TruthStatus.not_and _ _
  | not_or => exact TruthStatus.not_or _ _
  | not_not => exact TruthStatus.not_not _

/-- The laws neither add nor take away an atom. -/
theorem mem_atoms_iff (h : x.Rewrites y) {atom : Expr} : atom ∈ x.atoms ↔ atom ∈ y.atoms := by
  induction h with
  | refl => rfl
  | symm _ ih => exact ih.symm
  | trans _ _ ih ihNext => exact ih.trans ihNext
  | not _ ih => exact ih
  | and _ _ ih ih' => simp only [atoms, List.mem_append, ih, ih']
  | or _ _ ih ih' => simp only [atoms, List.mem_append, ih, ih']
  | and_comm | or_comm => simp only [atoms, List.mem_append, Or.comm]
  | and_assoc | or_assoc => simp only [atoms, List.append_assoc]
  | and_or | or_and =>
      simp only [atoms, List.mem_append]
      exact or_or_distrib_left
  | not_and | not_or | not_not => simp only [atoms]

end Rewrites

end Expr

end SolutionFlow
