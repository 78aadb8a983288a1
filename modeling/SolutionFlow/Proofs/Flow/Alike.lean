import SolutionFlow.Proofs.Flow.Ensures

/-! Two emissions that go alike: whoever receives them cannot tell one from the other, whatever it replies
and whatever the clock shows. Of the second one a failure may be pardoned; once it has reported that,
nothing more is asked of the two. -/
namespace SolutionFlow

namespace Emission

variable {α β γ δ : Type} {pardoned : QueryError → Prop}

/-- Two emissions say and ask the same and go on alike with each reply. What they leave behind is
related by `R`. -/
inductive Alike (pardoned : QueryError → Prop) (R : α → β → Prop) :
    Emission α → Emission β → Prop where
  | done {v : α} {w : β} (h : R v w) : Alike pardoned R (.done v) (.done w)
  | emit {row : Solution} {next : Bool → Emission α} {next' : Bool → Emission β}
      (h : ∀ more, Alike pardoned R (next more) (next' more)) :
      Alike pardoned R (.emit row next) (.emit row next')
  | finish {next : Emission α} {next' : Emission β} (h : Alike pardoned R next next') :
      Alike pardoned R (.finish next) (.finish next')
  | fail {error : QueryError} {next : Emission α} {next' : Emission β}
      (h : Alike pardoned R next next') : Alike pardoned R (.fail error next) (.fail error next')
  | probe {next : Bool → Emission α} {next' : Bool → Emission β}
      (h : ∀ gone, Alike pardoned R (next gone) (next' gone)) :
      Alike pardoned R (.probe next) (.probe next')
  | consult {next : Clock → Emission α} {next' : Clock → Emission β}
      (h : ∀ clock, Alike pardoned R (next clock) (next' clock)) :
      Alike pardoned R (.consult next) (.consult next')
  | adjust {clock : Clock} {next : Emission α} {next' : Emission β}
      (h : Alike pardoned R next next') :
      Alike pardoned R (.adjust clock next) (.adjust clock next')
  | pardon {e : Emission α} {error : QueryError} {next : Emission β} (h : pardoned error) :
      Alike pardoned R e (.fail error next)

/-- Emissions that go alike, with no failure pardoned. -/
abbrev Matches (R : α → β → Prop) (e : Emission α) (e' : Emission β) : Prop :=
  e.Alike (fun _ => False) R e'

namespace Alike

variable {R R' : α → β → Prop} {S : γ → δ → Prop} {e : Emission α} {e' : Emission β}

theorem refl {R : α → α → Prop} (h : ∀ v, R v v) (e : Emission α) : e.Alike pardoned R e := by
  induction e with
  | done v => exact .done (h v)
  | emit row next ih => exact .emit ih
  | finish next ih => exact .finish ih
  | fail error next ih => exact .fail ih
  | probe next ih => exact .probe ih
  | consult next ih => exact .consult ih
  | adjust clock next ih => exact .adjust ih

theorem mono (h : e.Alike pardoned R e') (hValue : ∀ v w, R v w → R' v w) :
    e.Alike pardoned R' e' := by
  induction h with
  | done h => exact .done (hValue _ _ h)
  | emit _ ih => exact .emit ih
  | finish _ ih => exact .finish ih
  | fail _ ih => exact .fail ih
  | probe _ ih => exact .probe ih
  | consult _ ih => exact .consult ih
  | adjust _ ih => exact .adjust ih
  | pardon h => exact .pardon h

/-- What follows on emissions that go alike may depend on what they leave behind. -/
theorem bind (h : e.Alike pardoned R e') {f : α → Emission γ} {g : β → Emission δ}
    (hNext : ∀ v w, R v w → (f v).Alike pardoned S (g w)) :
    (e >>= f).Alike pardoned S (e' >>= g) := by
  change (e.bind f).Alike pardoned S (e'.bind g)
  induction h with
  | done h => exact hNext _ _ h
  | emit _ ih => exact .emit ih
  | finish _ ih => exact .finish ih
  | fail _ ih => exact .fail ih
  | probe _ ih => exact .probe ih
  | consult _ ih => exact .consult ih
  | adjust _ ih => exact .adjust ih
  | pardon h => exact .pardon h

theorem map (h : e.Alike pardoned R e') {f : α → γ} {g : β → δ} (hValue : ∀ v w, R v w → S (f v) (g w)) :
    (f <$> e).Alike pardoned S (g <$> e') := by
  rw [← bind_pure_comp, ← bind_pure_comp]
  exact h.bind fun v w hRelated => .done (hValue v w hRelated)

/-- The same emission, with related ways to go on. -/
theorem bind_same (e : Emission γ) {f : γ → Emission α} {g : γ → Emission β}
    (hNext : ∀ v, (f v).Alike pardoned R (g v)) : (e >>= f).Alike pardoned R (e >>= g) :=
  (refl (R := Eq) (fun _ => rfl) e).bind fun v _ h => h ▸ hNext v

/-- The same, if what holds of the values in between is of use. -/
theorem bind_ensured {P : Solution → Prop} {Q : γ → Prop} {e : Emission γ} (h : e.Ensures P Q)
    {f : γ → Emission α} {g : γ → Emission β} (hNext : ∀ v, Q v → (f v).Alike pardoned R (g v)) :
    (e >>= f).Alike pardoned R (e >>= g) := by
  change (e.bind f).Alike pardoned R (e.bind g)
  induction e with
  | done v => exact hNext v h
  | emit row next ih => exact .emit fun more => ih more (h.2 more)
  | finish next ih => exact .finish (ih h)
  | fail error next ih => exact .fail (ih h)
  | probe next ih => exact .probe fun gone => ih gone (h gone)
  | consult next ih => exact .consult fun clock => ih clock (h clock)
  | adjust clock next ih => exact .adjust (ih h)

theorem pure {v : α} {w : β} (h : R v w) :
    (Pure.pure v : Emission α).Alike pardoned R (Pure.pure w : Emission β) := .done h

end Alike

/-- What holds of the values that an emission leaves behind may be used in what follows on it. -/
theorem bind_congr_of_ensures {P : Solution → Prop} {Q : α → Prop} {e : Emission α}
    (h : e.Ensures P Q) {f g : α → Emission β} (hNext : ∀ v, Q v → f v = g v) :
    e >>= f = e >>= g := by
  change e.bind f = e.bind g
  induction e with
  | done v => exact hNext v h
  | emit row next ih => exact congrArg (emit row) (funext fun more => ih more (h.2 more))
  | finish next ih => exact congrArg finish (ih h)
  | fail error next ih => exact congrArg (fail error) (ih h)
  | probe next ih => exact congrArg probe (funext fun gone => ih gone (h gone))
  | consult next ih => exact congrArg consult (funext fun clock => ih clock (h clock))
  | adjust clock next ih => exact congrArg (adjust clock) (ih h)

end Emission

namespace Consumer

variable {σ : Type} {pardoned : QueryError → Prop}

/-- A consumer is marked by a pardoned failure, and stays so. -/
structure Marks (c : Consumer σ) (pardoned : QueryError → Prop) (Marked : σ → Prop) : Prop where
  row : ∀ s row, Marked s → Marked (c.row s row).2
  finish : ∀ s, Marked s → Marked (c.finish s)
  fail : ∀ s error, pardoned error ∨ Marked s → Marked (c.fail s error)

theorem marks_none (c : Consumer σ) : c.Marks (fun _ => False) fun _ => False where
  row _ _ := id
  finish _ := id
  fail _ _ := by simp

/-- A consumer that also writes down the failures it is told of, the last one first. -/
def logging (c : Consumer σ) : Consumer (σ × List QueryError) where
  row s row := ((c.row s.1 row).1, (c.row s.1 row).2, s.2)
  finish s := (c.finish s.1, s.2)
  fail s error := (c.fail s.1 error, error :: s.2)
  gone s := c.gone s.1

theorem marks_logging (c : Consumer σ) (pardoned : QueryError → Prop) :
    c.logging.Marks pardoned fun s => ∃ error ∈ s.2, pardoned error where
  row _ _ := id
  finish _ := id
  fail s error h := by simpa [logging] using h

theorem Marks.deliver {c : Consumer σ} {Marked : σ → Prop} (h : c.Marks pardoned Marked) {α : Type}
    (e : Emission α) {clock : Clock} {s : σ} (hMarked : Marked s) :
    Marked (e.deliver c (clock, s)).2.2 := by
  induction e generalizing clock s with
  | done v => exact hMarked
  | emit row next ih => exact ih _ (h.row s row hMarked)
  | finish next ih => exact ih (h.finish s hMarked)
  | fail error next ih => exact ih (h.fail s error (.inr hMarked))
  | probe next ih => exact ih _ hMarked
  | consult next ih => exact ih _ hMarked
  | adjust clock next ih => exact ih hMarked

end Consumer

namespace Emission.Alike

variable {α β σ τ : Type} {pardoned : QueryError → Prop} {R : α → β → Prop} {e : Emission α}
  {e' : Emission β}

/-- A consumer is left with the same by emissions that go alike, unless a failure of the second one is
pardoned. -/
theorem deliver (h : e.Alike pardoned R e') {c : Consumer σ} {Marked : σ → Prop}
    (hMarks : c.Marks pardoned Marked) (s : Clock × σ) :
    (R (e.deliver c s).1 (e'.deliver c s).1 ∧ (e.deliver c s).2 = (e'.deliver c s).2) ∨
      Marked (e'.deliver c s).2.2 := by
  induction h generalizing s with
  | done h => exact .inl ⟨h, rfl⟩
  | emit _ ih => exact ih _ _
  | finish _ ih => exact ih _
  | fail _ ih => exact ih _
  | probe _ ih => exact ih _ _
  | consult _ ih => exact ih _ _
  | adjust _ ih => exact ih _
  | @pardon e error next h =>
      exact .inr (hMarks.deliver next (hMarks.fail s.2 error (.inl h)))

end Emission.Alike

namespace Pipe

variable {α β σ τ : Type} {pardoned : QueryError → Prop}

/-- Two operators answer alike in states that are related, and stay in such states. The second one
reports a pardoned failure before anything else. -/
structure Alike (pardoned : QueryError → Prop) (R : σ → τ → Prop) (p : Pipe σ) (q : Pipe τ) :
    Prop where
  onRow : ∀ s t row, R s t →
    (p.onRow s row).Alike pardoned (fun a b => a.1 = b.1 ∧ R a.2 b.2) (q.onRow t row)
  onFinish : ∀ s t, R s t → (p.onFinish s).Alike pardoned R (q.onFinish t)
  onFail : ∀ s t error, R s t → (p.onFail s error).Alike pardoned R (q.onFail t error)
  pardon : ∀ t error, pardoned error → ∃ next, q.onFail t error = .fail error next

/-- Emissions that go alike do so behind operators that answer alike. -/
theorem Alike.through {R : σ → τ → Prop} {p : Pipe σ} {q : Pipe τ} (h : Alike pardoned R p q)
    {K : α → β → Prop} {e : Emission α} {e' : Emission β} (hEmission : e.Alike pardoned K e') {s : σ}
    {t : τ} (hState : R s t) :
    (p.through s e).Alike pardoned (fun a b => K a.1 b.1 ∧ R a.2 b.2) (q.through t e') := by
  induction hEmission generalizing s t with
  | done hValue => exact .done ⟨hValue, hState⟩
  | emit _ ih =>
      refine (h.onRow s t _ hState).bind ?_
      rintro ⟨more, s'⟩ ⟨_, t'⟩ ⟨rfl, hNext⟩
      exact ih more hNext
  | finish _ ih => exact (h.onFinish s t hState).bind fun _ _ hNext => ih hNext
  | fail _ ih => exact (h.onFail s t _ hState).bind fun _ _ hNext => ih hNext
  | probe _ ih => exact .probe fun gone => ih gone hState
  | consult _ ih => exact .consult fun clock => ih clock hState
  | adjust _ ih => exact .adjust (ih hState)
  | pardon hPardoned =>
      obtain ⟨next, hFail⟩ := h.pardon t _ hPardoned
      rw [Pipe.through, hFail]
      exact .pardon hPardoned

end Pipe

namespace Process

variable {σ : Type}

/-- Lets jobs make their steps one after another, each at its time, and gives the process, the clock
and what the consumer has become. -/
def deliverAll (env : Environment) (c : Consumer σ) :
    List Appointment → Process × Clock × σ → Process × Clock × σ
  | [], s => s
  | a :: rest, (p, clock, s) =>
    deliverAll env c rest
      ((p.deliver env a.path).deliver c ({ clock with time := a.time }, s))

/-- The clock and the consumer after a process has been started and jobs have made their steps in the
given order. -/
def outcome (env : Environment) (c : Consumer σ) (start : Emission Process)
    (order : List Appointment) (s : Clock × σ) : Clock × σ :=
  (deliverAll env c order (start.deliver c s)).2

variable {env : Environment} {pardoned : QueryError → Prop} {R : Process → Process → Prop}

theorem marked_deliverAll {c : Consumer σ} {Marked : σ → Prop} (hMarks : c.Marks pardoned Marked)
    (order : List Appointment) {r : Process × Clock × σ} (hMarked : Marked r.2.2) :
    Marked (deliverAll env c order r).2.2 := by
  induction order generalizing r with
  | nil => exact hMarked
  | cons a rest ih => exact ih (hMarks.deliver _ hMarked)

variable (hStep : ∀ p q path, R p q → (p.deliver env path).Alike pardoned R (q.deliver env path))

include hStep

/-- Processes whose steps go alike leave a consumer with the same, in whatever order the steps are made,
unless a failure of the second one is pardoned. -/
theorem deliverAll_eq_or_marked {c : Consumer σ} {Marked : σ → Prop}
    (hMarks : c.Marks pardoned Marked) (order : List Appointment) {r r' : Process × Clock × σ}
    (hProcess : R r.1 r'.1) (hEq : r.2 = r'.2) :
    (deliverAll env c order r).2 = (deliverAll env c order r').2 ∨
      Marked (deliverAll env c order r').2.2 := by
  induction order generalizing r r' with
  | nil => exact .inl hEq
  | cons a rest ih =>
      obtain ⟨p, clock, s⟩ := r
      obtain ⟨q, clock', s'⟩ := r'
      obtain ⟨rfl, rfl⟩ := Prod.mk.inj hEq
      obtain ⟨hNext, hSame⟩ | hMarked :=
        (hStep p q a.path hProcess).deliver hMarks ({ clock with time := a.time }, s)
      · exact ih hNext hSame
      · exact .inr (marked_deliverAll hMarks rest hMarked)

/-- The same holds of two starts that go alike. -/
theorem outcome_eq_or_marked {start start' : Emission Process}
    (hStart : start.Alike pardoned R start') {c : Consumer σ} {Marked : σ → Prop}
    (hMarks : c.Marks pardoned Marked) (order : List Appointment) (s : Clock × σ) :
    outcome env c start order s = outcome env c start' order s ∨
      Marked (outcome env c start' order s).2 := by
  obtain ⟨hProcess, hEq⟩ | hMarked := hStart.deliver hMarks s
  · exact deliverAll_eq_or_marked hStep hMarks order hProcess hEq
  · exact .inr (marked_deliverAll hMarks order hMarked)

end Process

end SolutionFlow
