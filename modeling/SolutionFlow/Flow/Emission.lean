import SolutionFlow.Clock
import SolutionFlow.Error.Query
import SolutionFlow.Solution.Basic

/-!
Emissions: what a producer says to its consumer in one go, together with how it goes on with each
reply.

A producer hands over rows, each of which the consumer accepts or refuses, announces the end of its
stream, reports failures, and may ask whether its consumer is gone. An operator turns what its
argument emits into an emission of its own (`Pipe.through`), so that one push runs through all
operators above a leaf before anything else happens. At the top a `Consumer` receives it. All who
take part in an emission share a clock, which each finds as the one before has left it.
-/

namespace SolutionFlow

/-- An emission that leaves a value of type `α` behind when it is over. -/
inductive Emission (α : Type) where
  | done (value : α)
  | emit (row : Solution) (next : Bool → Emission α)
  | finish (next : Emission α)
  | fail (error : QueryError) (next : Emission α)
  | probe (next : Bool → Emission α)
  | consult (next : Clock → Emission α)
  | adjust (clock : Clock) (next : Emission α)

namespace Emission

variable {α β γ : Type}

def bind : Emission α → (α → Emission β) → Emission β
  | .done value, f => f value
  | .emit row next, f => .emit row fun more => (next more).bind f
  | .finish next, f => .finish (next.bind f)
  | .fail error next, f => .fail error (next.bind f)
  | .probe next, f => .probe fun gone => (next gone).bind f
  | .consult next, f => .consult fun clock => (next clock).bind f
  | .adjust clock next, f => .adjust clock (next.bind f)

instance : Monad Emission where
  pure := .done
  bind := bind

theorem bind_done (e : Emission α) : e.bind .done = e := by
  induction e with
  | done value => rfl
  | emit row next ih => simp only [bind, ih]
  | finish next ih => simp only [bind, ih]
  | fail error next ih => simp only [bind, ih]
  | probe next ih => simp only [bind, ih]
  | consult next ih => simp only [bind, ih]
  | adjust clock next ih => simp only [bind, ih]

theorem bind_assoc (e : Emission α) (f : α → Emission β) (g : β → Emission γ) :
    (e.bind f).bind g = e.bind fun value => (f value).bind g := by
  induction e with
  | done value => rfl
  | emit row next ih => simp only [bind, ih]
  | finish next ih => simp only [bind, ih]
  | fail error next ih => simp only [bind, ih]
  | probe next ih => simp only [bind, ih]
  | consult next ih => simp only [bind, ih]
  | adjust clock next ih => simp only [bind, ih]

instance : LawfulMonad Emission := .mk' Emission bind_done (fun _ _ => rfl) bind_assoc

/-- Hands over a row and gives the reply: whether more is wanted. -/
def push (row : Solution) : Emission Bool := .emit row .done

/-- Announces the end of the stream. -/
def finished : Emission Unit := .finish (.done ())

/-- Reports a failure. -/
def report (error : QueryError) : Emission Unit := .fail error (.done ())

/-- Asks whether the consumer is gone. -/
def isGone : Emission Bool := .probe .done

/-- Does something in time. -/
def timed (act : Timed α) : Emission α :=
  .consult fun clock =>
    match act clock with
    | (value, clock) => .adjust clock (.done value)

/-- The present time. -/
def time : Emission Nat := .consult fun clock => .done clock.time

/-- Reports a failure to a consumer that is still there. -/
def reportIfHeard (error : QueryError) : Emission Unit := do
  if ← isGone then pure () else report error

/-- Hands over some rows, as long as they are accepted, and tells whether all of them were. -/
def pushAll : List Solution → Emission Bool
  | [] => .done true
  | row :: rest => .emit row fun more => if more then pushAll rest else .done false

end Emission

/-- What is done about each of the things that an argument may emit, and what is left behind. -/
structure Reaction (τ : Type) where
  onRow : Solution → Emission (Bool × τ)
  onFinish : Emission τ
  onFail : QueryError → Emission τ

/-- How an operator in state `σ` answers what one of its arguments emits. -/
structure Pipe (σ : Type) where
  onRow : σ → Solution → Emission (Bool × σ)
  onFinish : σ → Emission σ
  onFail : σ → QueryError → Emission σ

namespace Pipe

variable {σ α β : Type}

/-- An operator that answers rows and hands on ends and failures as they come. -/
def ofRow (onRow : σ → Solution → Emission (Bool × σ)) : Pipe σ where
  onRow := onRow
  onFinish s := do
    Emission.finished
    return s
  onFail s error := do
    Emission.report error
    return s

/-- What an operator in a given state does, with its next state in another form. -/
def react {τ : Type} (p : Pipe σ) (s : σ) (wrap : σ → τ) : Reaction τ where
  onRow row := do
    let (more, s) ← p.onRow s row
    return (more, wrap s)
  onFinish := do
    return wrap (← p.onFinish s)
  onFail error := do
    return wrap (← p.onFail s error)

/-- An operator by what it does in each state. -/
def ofReaction (react : σ → Reaction σ) : Pipe σ where
  onRow s := (react s).onRow
  onFinish s := (react s).onFinish
  onFail s := (react s).onFail

/-- Sends an emission through an operator, which receives it event by event. -/
def through (p : Pipe σ) : σ → Emission α → Emission (α × σ)
  | s, .done value => .done (value, s)
  | s, .emit row next => (p.onRow s row).bind fun (more, s) => p.through s (next more)
  | s, .finish next => (p.onFinish s).bind fun s => p.through s next
  | s, .fail error next => (p.onFail s error).bind fun s => p.through s next
  | s, .probe next => .probe fun gone => p.through s (next gone)
  | s, .consult next => .consult fun clock => p.through s (next clock)
  | s, .adjust clock next => .adjust clock (p.through s next)

/-- The second part of an emission meets the operator as the first part has left it. -/
theorem through_bind (p : Pipe σ) (s : σ) (e : Emission α) (f : α → Emission β) :
    p.through s (e.bind f) = (p.through s e).bind fun (value, s) => p.through s (f value) := by
  induction e generalizing s with
  | done value => rfl
  | emit row next ih => simp only [Emission.bind, through, ih, Emission.bind_assoc]
  | finish next ih => simp only [Emission.bind, through, ih, Emission.bind_assoc]
  | fail error next ih => simp only [Emission.bind, through, ih, Emission.bind_assoc]
  | probe next ih => simp only [Emission.bind, through, ih]
  | consult next ih => simp only [Emission.bind, through, ih]
  | adjust clock next ih => simp only [Emission.bind, through, ih]

end Pipe

/-- The receiver at the top, in state `σ`. -/
structure Consumer (σ : Type) where
  row : σ → Solution → Bool × σ
  finish : σ → σ
  fail : σ → QueryError → σ
  gone : σ → Bool

namespace Emission

variable {σ α β : Type}

/-- Plays an emission to a consumer, on a clock. -/
def deliver (c : Consumer σ) : Emission α → Clock × σ → α × Clock × σ
  | .done value, s => (value, s)
  | .emit row next, (clock, s) => deliver c (next (c.row s row).1) (clock, (c.row s row).2)
  | .finish next, (clock, s) => deliver c next (clock, c.finish s)
  | .fail error next, (clock, s) => deliver c next (clock, c.fail s error)
  | .probe next, (clock, s) => deliver c (next (c.gone s)) (clock, s)
  | .consult next, (clock, s) => deliver c (next clock) (clock, s)
  | .adjust clock next, (_, s) => deliver c next (clock, s)

/-- The second part of an emission meets the clock and the consumer as the first part has left
them. -/
theorem deliver_bind (c : Consumer σ) (e : Emission α) (f : α → Emission β) (s : Clock × σ) :
    (e.bind f).deliver c s = (f (e.deliver c s).1).deliver c (e.deliver c s).2 := by
  induction e generalizing s with
  | done value => rfl
  | emit row next ih => simp only [bind, deliver, ih]
  | finish next ih => simp only [bind, deliver, ih]
  | fail error next ih => simp only [bind, deliver, ih]
  | probe next ih => simp only [bind, deliver, ih]
  | consult next ih => simp only [bind, deliver, ih]
  | adjust clock next ih => simp only [bind, deliver, ih]

end Emission

end SolutionFlow
