import SolutionFlow.Expression.Eval

/-! What becomes of failed queries in an expression. A nested query that fails ends the evaluation with its
failure, unless a conjunction or disjunction above it is settled by the other operand, or by an error of
the type that comes before it: these take all errors alike. -/
namespace SolutionFlow

variable {α β : Type}

/-- An outcome that is the failure of a query. -/
def Failed (outcome : Except EvalError α) : Prop := ∃ error, outcome = .error (.query error)

@[simp]
theorem not_failed_ok (value : α) : ¬Failed (.ok value) := by simp [Failed]

@[simp]
theorem not_failed_type (fault : TypeFault) : ¬Failed (.error (.type fault) : Except EvalError α) := by
  simp [Failed]

@[simp]
theorem failed_query (error : QueryError) : Failed (.error (.query error) : Except EvalError α) :=
  ⟨error, rfl⟩

theorem Term.not_failed_truth (term : Term) : ¬Failed term.truth := by
  cases term <;> simp [Term.truth]

theorem Comparison.not_failed_apply (op : Comparison) (left right : Term) :
    ¬Failed (op.apply left right) := by
  unfold apply
  split
  · simp
  · split <;> simp

namespace Arithmetic

theorem not_failed_onIntegers (op : Arithmetic) (a b : Int) : ¬Failed (op.onIntegers a b) := by
  have hInteger (value : Int) : ¬Failed (integer value) := by
    unfold integer
    split <;> simp
  cases op with
  | add => exact hInteger _
  | sub => exact hInteger _
  | mul => exact hInteger _
  | div =>
      simp only [onIntegers]
      split <;> simp

theorem not_failed_onDoubles (op : Arithmetic) (a b : Double) : ¬Failed (op.onDoubles a b) := by
  cases op with
  | div =>
      simp only [onDoubles]
      split <;> simp
  | _ => exact not_failed_ok _

theorem not_failed_apply (op : Arithmetic) (left right : Term) : ¬Failed (op.apply left right) := by
  unfold apply
  split
  · exact not_failed_onIntegers op _ _
  · split
    · exact not_failed_onDoubles op _ _
    · simp

end Arithmetic

namespace Truth

/-- A combination that is settled by one truth value has another outcome than the failure of a query that
an operand ends with: the other operand settles it, or there is an error of the type before. -/
def Loses (settling : Bool) (left right : Truth) : Prop :=
  (Failed left ∧ right = .ok settling) ∨ ((∃ fault, left = .error (.type fault)) ∧ Failed right)

theorem failed_and_or_loses {left right : Truth} (h : left ≠ .ok false) :
    Failed (left.and right) ∨ Loses false left right ↔ Failed left ∨ Failed right := by
  rcases left with (fault | error) | (_ | _)
  · rcases right with (fault | error) | (_ | _) <;> simp [Truth.and, Loses]
  · rcases right with (fault | error) | (_ | _) <;> simp [Truth.and, Loses]
  · exact absurd rfl h
  · rcases right with (fault | error) | (_ | _) <;> simp [Truth.and, Loses]

theorem failed_or_or_loses {left right : Truth} (h : left ≠ .ok true) :
    Failed (left.or right) ∨ Loses true left right ↔ Failed left ∨ Failed right := by
  rcases left with (fault | error) | (_ | _)
  · rcases right with (fault | error) | (_ | _) <;> simp [Truth.or, Loses]
  · rcases right with (fault | error) | (_ | _) <;> simp [Truth.or, Loses]
  · rcases right with (fault | error) | (_ | _) <;> simp [Truth.or, Loses]
  · exact absurd rfl h

/-- What a combination fails with is what an operand fails with. -/
theorem eq_of_and_eq_error {left right : Truth} {error : EvalError} (h : left.and right = .error error) :
    left = .error error ∨ right = .error error := by
  rcases left with other | (_ | _)
  · rcases right with _ | (_ | _) <;> simp_all [Truth.and]
  · simp [Truth.and] at h
  · exact .inr h

theorem eq_of_or_eq_error {left right : Truth} {error : EvalError} (h : left.or right = .error error) :
    left = .error error ∨ right = .error error := by
  rcases left with other | (_ | _)
  · rcases right with _ | (_ | _) <;> simp_all [Truth.or]
  · exact .inr h
  · simp [Truth.or] at h

end Truth

/-- What becomes of the failures that an evaluation meets: it ends with one of them, or loses one. It does
neither if it meets none. -/
structure Accounts (outcome : Except EvalError α) (meets : QueryError → Prop) (loses : Prop) : Prop where
  ends_met : ∀ error, outcome = .error (.query error) → meets error
  loses_met : loses → ∃ error, meets error
  failed_or_loses : ∀ error, meets error → Failed outcome ∨ loses

namespace Timed

theorem bind_apply (x : Timed α) (f : α → Timed β) (clock : Clock) :
    (x >>= f) clock = f (x clock).1 (x clock).2 := rfl

/-- The outcome of two computations, of which the second one takes place if the first one succeeds. -/
theorem run_bind {ε : Type} (x : ExceptT ε Timed α) (f : α → ExceptT ε Timed β) (clock : Clock) :
    ((x >>= f).run clock).1 =
      match (x.run clock).1 with
      | .ok a => ((f a).run (x.run clock).2).1
      | .error error => .error error := by
  change (ExceptT.bindCont f (x.run clock).1 (x.run clock).2).1 = _
  cases (x.run clock).1 <;> rfl

end Timed

namespace Accounts

variable {x : Evaluating α} {f : α → Evaluating β} {clock : Clock} {outcome : Except EvalError α}
  {left right : Evaluating Bool} {meets meets' : QueryError → Prop} {loses loses' : Prop}

theorem iff (h : Accounts outcome meets loses) : (∃ error, meets error) ↔ Failed outcome ∨ loses := by
  constructor
  · rintro ⟨error, hMeets⟩
    exact h.failed_or_loses error hMeets
  · rintro (⟨error, hEnds⟩ | hLoses)
    · exact ⟨error, h.ends_met error hEnds⟩
    · exact h.loses_met hLoses

theorem of_not_failed (h : ¬Failed outcome) : Accounts outcome (fun _ => False) False where
  ends_met error hEnds := h ⟨error, hEnds⟩
  loses_met := False.elim
  failed_or_loses _ := False.elim

theorem not_failed (h : Accounts outcome (fun _ => False) False) : ¬Failed outcome :=
  fun ⟨error, hEnds⟩ => h.ends_met error hEnds

theorem congr (h : Accounts outcome meets loses) {outcome' : Except EvalError β}
    (hSame : ∀ error, outcome' = .error (.query error) ↔ outcome = .error (.query error)) :
    Accounts outcome' meets loses where
  ends_met error hEnds := h.ends_met error ((hSame error).mp hEnds)
  loses_met := h.loses_met
  failed_or_loses error hMeets :=
    (h.failed_or_loses error hMeets).imp_left fun ⟨other, hEnds⟩ => ⟨other, (hSame other).mpr hEnds⟩

/-- What comes after a value takes part only if there is one. -/
theorem bind (h : Accounts (x.run clock).1 meets loses)
    (hNext : ∀ a, (x.run clock).1 = .ok a → Accounts ((f a).run (x.run clock).2).1 meets' loses') :
    Accounts ((x >>= f).run clock).1
      (fun error => meets error ∨ (∃ a, (x.run clock).1 = .ok a) ∧ meets' error)
      (loses ∨ (∃ a, (x.run clock).1 = .ok a) ∧ loses') := by
  rw [Timed.run_bind]
  cases hFirst : (x.run clock).1 with
  | error error =>
      rw [hFirst] at h
      simp only [reduceCtorEq, exists_false, false_and, or_false]
      exact h.congr fun other => by simp
  | ok a =>
      rw [hFirst] at h
      have hThen := hNext a hFirst
      refine ⟨fun error hEnds => .inr ⟨⟨a, rfl⟩, hThen.ends_met error hEnds⟩, ?_, ?_⟩
      · rintro (hLoses | ⟨-, hLoses⟩)
        · exact (h.loses_met hLoses).imp fun _ => .inl
        · exact (hThen.loses_met hLoses).imp fun _ hMeets => .inr ⟨⟨a, rfl⟩, hMeets⟩
      · rintro error (hMeets | ⟨-, hMeets⟩)
        · exact .inr (.inl ((h.failed_or_loses error hMeets).resolve_left (not_failed_ok a)))
        · exact (hThen.failed_or_loses error hMeets).imp_right fun hLoses => .inr ⟨⟨a, rfl⟩, hLoses⟩

/-- What comes after may fail of its own, but with no query. -/
theorem bind_not_failed (h : Accounts (x.run clock).1 meets loses)
    (hNext : ∀ a later, ¬Failed ((f a).run later).1) :
    Accounts ((x >>= f).run clock).1 meets loses := by
  refine h.congr fun error => ?_
  rw [Timed.run_bind]
  cases hFirst : (x.run clock).1 with
  | error other => simp
  | ok a => simpa using fun hEnds => hNext a _ ⟨error, hEnds⟩

/-- Two operands of which both are evaluated. -/
theorem combine {settling : Bool} {first second outcome : Truth} (hLeft : Accounts first meets loses)
    (hRight : Accounts second meets' loses')
    (hEnds : ∀ error, outcome = .error error → first = .error error ∨ second = .error error)
    (hFailed : Failed outcome ∨ first.Loses settling second ↔ Failed first ∨ Failed second) :
    Accounts outcome (fun error => meets error ∨ meets' error)
      (loses ∨ loses' ∨ first.Loses settling second) where
  ends_met error hError :=
    (hEnds _ hError).imp (hLeft.ends_met error) (hRight.ends_met error)
  loses_met := by
    rintro (hLoses | hLoses | hLoses)
    · exact (hLeft.loses_met hLoses).imp fun _ => .inl
    · exact (hRight.loses_met hLoses).imp fun _ => .inr
    · rcases hFailed.mp (.inr hLoses) with ⟨error, hError⟩ | ⟨error, hError⟩
      · exact ⟨error, .inl (hLeft.ends_met error hError)⟩
      · exact ⟨error, .inr (hRight.ends_met error hError)⟩
  failed_or_loses error := by
    have hOwn (hOperand : Failed first ∨ Failed second) :
        Failed outcome ∨ loses ∨ loses' ∨ first.Loses settling second :=
      (hFailed.mpr hOperand).imp_right fun hLoses => .inr (.inr hLoses)
    rintro (hMeets | hMeets)
    · rcases hLeft.failed_or_loses error hMeets with hFirst | hLoses
      · exact hOwn (.inl hFirst)
      · exact .inr (.inl hLoses)
    · rcases hRight.failed_or_loses error hMeets with hSecond | hLoses
      · exact hOwn (.inr hSecond)
      · exact .inr (.inr (.inl hLoses))

/-- An operand that is left out would not matter. -/
theorem run_both : ((Expr.both left right).run clock).1 =
    Truth.and (left.run clock).1 (right.run (left.run clock).2).1 := by
  rw [Expr.both, ExceptT.run_mk, Timed.bind_apply]
  rcases (left.run clock).1 with error | (_ | _) <;> rfl

theorem run_any : ((Expr.any left right).run clock).1 =
    Truth.or (left.run clock).1 (right.run (left.run clock).2).1 := by
  rw [Expr.any, ExceptT.run_mk, Timed.bind_apply]
  rcases (left.run clock).1 with error | (_ | _) <;> rfl

theorem both (hLeft : Accounts (left.run clock).1 meets loses)
    (hRight : Accounts (right.run (left.run clock).2).1 meets' loses') :
    Accounts ((Expr.both left right).run clock).1
      (fun error => meets error ∨ (left.run clock).1 ≠ .ok false ∧ meets' error)
      (loses ∨ (left.run clock).1 ≠ .ok false ∧
        (loses' ∨ Truth.Loses false (left.run clock).1 (right.run (left.run clock).2).1)) := by
  rw [run_both]
  by_cases hFalse : (left.run clock).1 = .ok false
  · rw [hFalse] at hLeft ⊢
    simp only [ne_eq, not_true_eq_false, false_and, or_false]
    exact hLeft
  · simp only [ne_eq, hFalse, not_false_eq_true, true_and]
    exact hLeft.combine hRight (fun _ => Truth.eq_of_and_eq_error)
      (Truth.failed_and_or_loses hFalse)

theorem any (hLeft : Accounts (left.run clock).1 meets loses)
    (hRight : Accounts (right.run (left.run clock).2).1 meets' loses') :
    Accounts ((Expr.any left right).run clock).1
      (fun error => meets error ∨ (left.run clock).1 ≠ .ok true ∧ meets' error)
      (loses ∨ (left.run clock).1 ≠ .ok true ∧
        (loses' ∨ Truth.Loses true (left.run clock).1 (right.run (left.run clock).2).1)) := by
  rw [run_any]
  by_cases hTrue : (left.run clock).1 = .ok true
  · rw [hTrue] at hLeft ⊢
    simp only [ne_eq, not_true_eq_false, false_and, or_false]
    exact hLeft
  · simp only [ne_eq, hTrue, not_false_eq_true, true_and]
    exact hLeft.combine hRight (fun _ => Truth.eq_of_or_eq_error)
      (Truth.failed_or_or_loses hTrue)

end Accounts

namespace Expr

section

variable (around : Surroundings) (row : Solution)

/-- A nested query that is asked on the way to the value of an expression fails with the given error. -/
def Meets (error : QueryError) : Expr → Clock → Prop
  | .var _, _ | .constant _, _ | .bound _, _ | .now, _ | .aggregate _, _ => False
  | .not arg, clock | .str arg, clock => arg.Meets error clock
  | .and left right, clock =>
    left.Meets error clock ∨ ((left.holds around row).run clock).1 ≠ .ok false ∧
      right.Meets error ((left.holds around row).run clock).2
  | .or left right, clock =>
    left.Meets error clock ∨ ((left.holds around row).run clock).1 ≠ .ok true ∧
      right.Meets error ((left.holds around row).run clock).2
  | .compare _ left right, clock | .arith _ left right, clock =>
    left.Meets error clock ∨ (∃ term, ((left.eval around row).run clock).1 = .ok term) ∧
      right.Meets error ((left.eval around row).run clock).2
  | .exists plan, clock => (around.firstSolution plan row clock).1 = .error error

/-- On the way to the value of an expression, a conjunction or disjunction loses the failure of a query that
one of its operands ends with. -/
def Loses : Expr → Clock → Prop
  | .var _, _ | .constant _, _ | .bound _, _ | .now, _ | .aggregate _, _ | .exists _, _ => False
  | .not arg, clock | .str arg, clock => arg.Loses clock
  | .and left right, clock =>
    let first := (left.holds around row).run clock
    left.Loses clock ∨ first.1 ≠ .ok false ∧
      (right.Loses first.2 ∨ Truth.Loses false first.1 ((right.holds around row).run first.2).1)
  | .or left right, clock =>
    let first := (left.holds around row).run clock
    left.Loses clock ∨ first.1 ≠ .ok true ∧
      (right.Loses first.2 ∨ Truth.Loses true first.1 ((right.holds around row).run first.2).1)
  | .compare _ left right, clock | .arith _ left right, clock =>
    left.Loses clock ∨ (∃ term, ((left.eval around row).run clock).1 = .ok term) ∧
      right.Loses ((left.eval around row).run clock).2

end

variable {around : Surroundings} {row : Solution}

theorem accounts_truthOf {value : Evaluating Term} {clock : Clock} {meets : QueryError → Prop}
    {loses : Prop} (h : Accounts (value.run clock).1 meets loses) :
    Accounts ((truthOf value).run clock).1 meets loses :=
  h.bind_not_failed fun term _ => term.not_failed_truth

theorem run_exists (plan : Plan) (clock : Clock) :
    (((Expr.exists plan).eval around row).run clock).1 =
      match (around.firstSolution plan row clock).1 with
      | .ok first => .ok (.boolean first.isSome)
      | .error e => .error (.query e) := by
  rw [eval]
  change ((match (around.firstSolution plan row clock).1 with
    | .ok first => (pure (.boolean first.isSome) : Evaluating Term)
    | .error e => throw (EvalError.query e)) (around.firstSolution plan row clock).2).1 = _
  cases (around.firstSolution plan row clock).1 <;> rfl

/-- What becomes of the failures of nested queries that are met on the way to a value. -/
theorem accounts_eval : (x : Expr) → (clock : Clock) →
    Accounts ((x.eval around row).run clock).1 (x.Meets around row · clock) (x.Loses around row clock)
  | .var name, clock => by
    refine .of_not_failed ?_
    rw [eval]
    cases row.get? name with
    | some term => exact not_failed_ok term
    | none => exact not_failed_type (.unbound name)
  | .constant term, _ => .of_not_failed (not_failed_ok term)
  | .bound name, _ => .of_not_failed (not_failed_ok (Term.boolean (row.binds name)))
  | .not arg, clock =>
    (accounts_truthOf (arg.accounts_eval clock)).bind_not_failed fun _ _ => not_failed_ok _
  | .and left right, clock =>
    ((accounts_truthOf (left.accounts_eval clock)).both
      (accounts_truthOf (right.accounts_eval _))).bind_not_failed fun _ _ => not_failed_ok _
  | .or left right, clock =>
    ((accounts_truthOf (left.accounts_eval clock)).any
      (accounts_truthOf (right.accounts_eval _))).bind_not_failed fun _ _ => not_failed_ok _
  | .compare op left right, clock =>
    (left.accounts_eval clock).bind fun l _ => (right.accounts_eval _).bind_not_failed fun r _ =>
      (Accounts.bind_not_failed (x := liftM (op.apply l r)) (f := fun b => pure (Term.boolean b))
        (.of_not_failed (op.not_failed_apply l r)) fun _ _ => not_failed_ok _).not_failed
  | .arith op left right, clock =>
    (left.accounts_eval clock).bind fun l _ => (right.accounts_eval _).bind_not_failed fun r _ =>
      op.not_failed_apply l r
  | .str arg, clock =>
    (arg.accounts_eval clock).bind_not_failed fun term _ => by
      cases term <;> first | exact not_failed_ok _ | exact not_failed_type _
  | .now, clock => .of_not_failed (not_failed_ok _)
  | .aggregate _, _ => .of_not_failed (not_failed_type .strayAggregate)
  | .exists plan, clock => by
    simp only [Meets, Loses, run_exists]
    cases (around.firstSolution plan row clock).1 with
    | ok first => exact ⟨by simp, False.elim, by simp⟩
    | error e => exact ⟨by simp, False.elim, by simp⟩

end Expr
end SolutionFlow
