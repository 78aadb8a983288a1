import SolutionFlow.Proofs.Expression.Coincidence
import SolutionFlow.Proofs.Expression.Failures

/-! NOW is the time of the query. Whoever asks for it first takes the present time for it, and all others get
that one. An expression without nested queries comes to the same as if the time that is taken in the end
had been put in for NOW beforehand, and then no clock makes a difference to it. -/
namespace SolutionFlow

namespace Clock

variable {first middle last : Clock} {now : Nat}

/-- No other time has been taken for the time of the query. -/
def Shows (now : Nat) (clock : Clock) : Prop := ∀ time, clock.queryTime = some time → time = now

/-- The time of the query, or the present one if none has been taken. -/
theorem shows_present (clock : Clock) : clock.Shows (clock.queryTime.getD clock.time) := by
  intro time hTime
  rw [hTime, Option.getD_some]

/-- If a time has been taken for the time of the query, it stays. -/
def Keeps (first last : Clock) : Prop :=
  ∀ time, first.queryTime = some time → last.queryTime = some time

theorem keeps_refl (clock : Clock) : clock.Keeps clock := fun _ => id

theorem Keeps.trans (h : first.Keeps middle) (hNext : middle.Keeps last) : first.Keeps last :=
  fun time hTime => hNext time (h time hTime)

theorem Shows.of_keeps (h : last.Shows now) (hKeeps : first.Keeps last) : first.Shows now :=
  fun time hTime => h time (hKeeps time hTime)

end Clock

namespace Timed

variable {ε α β : Type} {now : Nat}

/-- What is done in time keeps the time of the query, and if that is `now` in the end, it comes to what
another act comes to on all clocks. -/
def Dated (now : Nat) (act act' : Timed α) : Prop :=
  ∀ clock, clock.Keeps (act clock).2 ∧
    ((act clock).2.Shows now → ∀ other, act' other = ((act clock).1, other))

namespace Dated

theorem pure (value : α) : Dated now (Pure.pure value) (Pure.pure value) :=
  fun clock => ⟨clock.keeps_refl, fun _ _ => rfl⟩

theorem bind {act act' : Timed α} (h : Dated now act act') {f g : α → Timed β}
    (hNext : ∀ value, Dated now (f value) (g value)) : Dated now (act >>= f) (act' >>= g) := by
  intro clock
  obtain ⟨hKeeps, hSame⟩ := h clock
  obtain ⟨hKeepsOn, hSameOn⟩ := hNext (act clock).1 (act clock).2
  refine ⟨hKeeps.trans hKeepsOn, fun hShows other => ?_⟩
  rw [bind_apply, hSame (hShows.of_keeps hKeepsOn) other]
  exact hSameOn hShows other

theorem map {act act' : Timed α} (h : Dated now act act') (f : α → β) :
    Dated now (f <$> act) (f <$> act') := by
  rw [← bind_pure_comp, ← bind_pure_comp]
  exact h.bind fun value => .pure (f value)

theorem value (a : α) :
    Dated now (Pure.pure a : ExceptT ε Timed α).run (Pure.pure a : ExceptT ε Timed α).run :=
  Dated.pure (Except.ok a)

theorem fault (error : ε) :
    Dated now (throw error : ExceptT ε Timed α).run (throw error : ExceptT ε Timed α).run :=
  Dated.pure (Except.error error)

theorem known (outcome : Except ε α) :
    Dated now (liftM outcome : ExceptT ε Timed α).run (liftM outcome : ExceptT ε Timed α).run := by
  cases outcome with
  | ok a => exact .value a
  | error error => exact .fault error

/-- What follows in case of success only. -/
theorem andThen {x x' : ExceptT ε Timed α} (h : Dated now x.run x'.run) {f g : α → ExceptT ε Timed β}
    (hNext : ∀ value, Dated now (f value).run (g value).run) :
    Dated now (x >>= f).run (x' >>= g).run := by
  refine h.bind (f := ExceptT.bindCont f) (g := ExceptT.bindCont g) ?_
  rintro (error | value)
  · exact .pure (Except.error error)
  · exact hNext value

end Dated

end Timed

namespace Expr

open Timed (Dated)

/-- An expression with a time put in for NOW. Nested queries are left as they are. -/
def asOf (now : Nat) : Expr → Expr
  | .now => .constant (.ofTime now)
  | .not arg => .not (arg.asOf now)
  | .and left right => .and (left.asOf now) (right.asOf now)
  | .or left right => .or (left.asOf now) (right.asOf now)
  | .compare op left right => .compare op (left.asOf now) (right.asOf now)
  | .arith op left right => .arith op (left.asOf now) (right.asOf now)
  | .str arg => .str (arg.asOf now)
  | .var name => .var name
  | .constant term => .constant term
  | .bound name => .bound name
  | .aggregate call => .aggregate call
  | .exists plan => .exists plan

theorem varNames_asOf (now : Nat) : (x : Expr) → (x.asOf now).varNames = x.varNames
  | .var _ | .constant _ | .bound _ | .now | .aggregate _ | .exists _ => rfl
  | .not arg | .str arg => arg.varNames_asOf now
  | .and left right | .or left right | .compare _ left right | .arith _ left right => by
    simp only [asOf, varNames, left.varNames_asOf now, right.varNames_asOf now]

variable {around : Surroundings} {row row' : Solution} {now : Nat}

theorem dated_truthOf {value value' : Evaluating Term} (h : Dated now value.run value'.run) :
    Dated now (truthOf value).run (truthOf value').run :=
  h.andThen fun term => .known term.truth

theorem dated_both {left left' right right' : Evaluating Bool} (hLeft : Dated now left.run left'.run)
    (hRight : Dated now right.run right'.run) :
    Dated now (both left right).run (both left' right').run := by
  refine hLeft.bind fun l => ?_
  rcases l with error | (_ | _)
  · exact hRight.bind fun r => .pure _
  · exact .pure _
  · exact hRight.bind fun r => .pure _

theorem dated_any {left left' right right' : Evaluating Bool} (hLeft : Dated now left.run left'.run)
    (hRight : Dated now right.run right'.run) :
    Dated now (any left right).run (any left' right').run := by
  refine hLeft.bind fun l => ?_
  rcases l with error | (_ | _)
  · exact hRight.bind fun r => .pure _
  · exact hRight.bind fun r => .pure _
  · exact .pure _

/-- The first one who asks takes the time that is there in the end. -/
theorem dated_now :
    Dated now ((Expr.now).eval around row).run ((Expr.constant (.ofTime now)).eval around row).run := by
  rintro ⟨time, queryTime⟩
  cases queryTime with
  | none =>
      refine ⟨fun _ hTime => absurd hTime (Option.some_ne_none _).symm, fun hShows other => ?_⟩
      obtain rfl : time = now := hShows time rfl
      rfl
  | some taken =>
      refine ⟨Clock.keeps_refl _, fun hShows other => ?_⟩
      obtain rfl : taken = now := hShows taken rfl
      rfl

/-- An expression without nested queries comes to the same with the time of the query put in. -/
theorem dated_eval :
    (x : Expr) → x.ExistsFree → Dated now (x.eval around row).run ((x.asOf now).eval around row).run
  | .var name, _ => by
    simp only [asOf, eval]
    cases row.get? name with
    | some term => exact .value term
    | none => exact .fault (EvalError.type (.unbound name))
  | .constant term, _ => .value term
  | .bound name, _ => .value (Term.boolean (row.binds name))
  | .not arg, hFree =>
    (dated_truthOf (arg.dated_eval hFree)).andThen fun value => .value (Term.boolean (!value))
  | .and left right, hFree =>
    (dated_both (dated_truthOf (left.dated_eval hFree.1))
      (dated_truthOf (right.dated_eval hFree.2))).andThen fun value => .value (Term.boolean value)
  | .or left right, hFree =>
    (dated_any (dated_truthOf (left.dated_eval hFree.1))
      (dated_truthOf (right.dated_eval hFree.2))).andThen fun value => .value (Term.boolean value)
  | .compare op left right, hFree =>
    (left.dated_eval hFree.1).andThen fun l => (right.dated_eval hFree.2).andThen fun r =>
      Dated.andThen (.known (op.apply l r)) fun value => .value (Term.boolean value)
  | .arith op left right, hFree =>
    (left.dated_eval hFree.1).andThen fun l => (right.dated_eval hFree.2).andThen fun r =>
      .known (op.apply l r)
  | .str arg, hFree =>
    (arg.dated_eval hFree).andThen fun term => by
      cases term <;> first | exact .value _ | exact .fault _
  | .now, _ => dated_now
  | .aggregate _, _ => .fault (EvalError.type .strayAggregate)
  | .exists _, hFree => absurd hFree id

theorem dated_holds {x : Expr} (hFree : x.ExistsFree) :
    Dated now (x.holds around row).run ((x.asOf now).holds around row).run :=
  dated_truthOf (x.dated_eval hFree)

/-- So does its verdict on a row. -/
theorem dated_admits {x : Expr} (hFree : x.ExistsFree) :
    Dated now (x.admits around row).run ((x.asOf now).admits around row).run := by
  simp only [admits, ExceptT.run_map, ExceptT.run_mk]
  exact ((dated_holds hFree).map settle).map _

theorem existsFree_asOf (now : Nat) : (x : Expr) → x.ExistsFree → (x.asOf now).ExistsFree
  | .var _, hFree | .constant _, hFree | .bound _, hFree | .now, hFree | .aggregate _, hFree
  | .exists _, hFree => hFree
  | .not arg, hFree | .str arg, hFree => arg.existsFree_asOf now hFree
  | .and left right, hFree | .or left right, hFree | .compare _ left right, hFree
  | .arith _ left right, hFree =>
    ⟨left.existsFree_asOf now hFree.1, right.existsFree_asOf now hFree.2⟩

/-- An expression without nested queries meets no failure of one. -/
theorem not_meets_of_existsFree {error : QueryError} :
    (x : Expr) → x.ExistsFree → (clock : Clock) → ¬x.Meets around row error clock
  | .var _, _, _ | .constant _, _, _ | .bound _, _, _ | .now, _, _ | .aggregate _, _, _ => id
  | .not arg, hFree, clock | .str arg, hFree, clock => arg.not_meets_of_existsFree hFree clock
  | .and left right, hFree, clock | .or left right, hFree, clock
  | .compare _ left right, hFree, clock | .arith _ left right, hFree, clock => fun hMeets =>
    hMeets.elim (left.not_meets_of_existsFree hFree.1 clock) fun hRight =>
      right.not_meets_of_existsFree hFree.2 _ hRight.2
  | .exists _, hFree, _ => absurd hFree id

theorem not_failed_holds {x : Expr} (hFree : x.ExistsFree) (clock : Clock) :
    ¬Failed ((x.holds around row).run clock).1 := by
  rintro ⟨error, hEnds⟩
  exact x.not_meets_of_existsFree hFree clock
    ((accounts_truthOf (x.accounts_eval clock)).ends_met error hEnds)

/-- What an expression without nested queries comes to on a row, when the time of the query is `now`: whether
it holds, or why that cannot be told. -/
def outcomeAt (now : Nat) (row : Solution) (x : Expr) : Except EvalError Bool :=
  ((x.holds ⟨fun _ _ => return .ok none⟩ row).run ⟨now, some now⟩).1

/-- Whether it holds. If this cannot be told, it does not. -/
def holdsAt (now : Nat) (row : Solution) (x : Expr) : Bool :=
  match x.outcomeAt now row with
  | .ok value => value
  | .error _ => false

/-- With a time put in for NOW, an expression comes to this on all clocks. -/
theorem run_holds_asOf {x : Expr} (hFree : x.ExistsFree) (clock : Clock) :
    (((x.asOf now).holds around row).run clock).1 = x.outcomeAt now row := by
  let silent : Surroundings := ⟨fun _ _ => return .ok none⟩
  have hDated : Dated now (x.holds silent row).run ((x.asOf now).holds silent row).run :=
    dated_holds hFree
  obtain ⟨hKeeps, hSame⟩ := hDated ⟨now, some now⟩
  have hShows : ((x.holds silent row).run ⟨now, some now⟩).2.Shows now := by
    intro time hTime
    exact Option.some.inj (hTime.symm.trans (hKeeps now rfl))
  have hAround : (x.asOf now).holds around row = (x.asOf now).holds silent row := by
    rw [holds, holds, (x.asOf now).eval_congr (x.existsFree_asOf now hFree) fun _ _ => rfl]
  rw [hAround]
  rw [hSame hShows clock]
  rfl

/-- Only the names that an expression mentions make a difference to what it comes to. -/
theorem holdsAt_congr {x : Expr} (hFree : x.ExistsFree) (h : Solution.AgreeOn x.varNames row row') :
    x.holdsAt now row = x.holdsAt now row' := by
  rw [holdsAt, holdsAt, outcomeAt, outcomeAt, holds, holds, x.eval_congr hFree h]

end Expr

end SolutionFlow
