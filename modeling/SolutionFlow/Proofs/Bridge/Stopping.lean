import SolutionFlow.Proofs.Bridge.Waiting
import SolutionFlow.Proofs.Contract.EndOfStream

/-! Why the producers of a plan stop. A plan whose jobs have all ended has handed over its end, has been
refused something, has failed, or has seen that the bridge is closed; none stops without a word. -/
namespace SolutionFlow

namespace Emission

/-- As long as rows are accepted and the consumer is there, an emission says its end or a failure, or it
leaves a process behind that fulfils `K`. -/
def Concludes (K : Process → Prop) : Emission Process → Prop
  | .done process => K process
  | .emit _ next => (next true).Concludes K
  | .finish _ | .fail _ _ => True
  | .probe next => (next false).Concludes K
  | .consult next => ∀ clock, (next clock).Concludes K
  | .adjust _ next => next.Concludes K

theorem concludes_of_says {K : Process → Prop} {e : Emission Process}
    (h : ∀ t process, e.Says t process → t.isOver = false → K process) : e.Concludes K := by
  induction e with
  | done process => exact h [] process ⟨rfl, rfl⟩ rfl
  | emit row next ih =>
      refine ih true fun t process hSays hOpen => h (.row row true :: t) process ⟨true, t, rfl, hSays⟩ ?_
      simpa [Trace.isOver] using hOpen
  | finish next ih => trivial
  | fail error next ih => trivial
  | probe next ih => exact ih false h
  | consult next ih => exact fun clock => ih clock fun t process hSays => h t process ⟨clock, hSays⟩
  | adjust clock next ih => exact ih h

end Emission

namespace Producer

/-- What a producer still owes to its consumer when it has had no reason to stop so far. -/
def Owes (K : Process → Prop) : Producer → Prop
  | .saying rest => rest.Concludes K
  | .pushing (.row _) next | .sending (.row _) next => (next true).Concludes K
  | .pushing .finish _ | .sending .finish _ => True
  | _ => False

variable {env : Environment} {b b' : Bridge} {p q : Producer} {act : Act} {K : Process → Prop}

/-- A producer owes the same until it has a reason to stop. -/
theorem Moves.owes (move : p.Moves env b act b' q) (hOwes : p.Owes K)
    (hLive : ∀ process path, K process → process.Live path → (process.deliver env path).Concludes K)
    (hStops : act.stops = false) : q.Owes K := by
  cases move with
  | offerRow => exact hOwes
  | offerFinish => trivial
  | look | retry =>
      rename_i d next _
      cases d with
      | row row => exact hOwes
      | finish => trivial
      | wake => exact hOwes
  | accept =>
      rename_i d next _
      cases d with
      | row row => exact hOwes
      | finish => simp [Act.stops] at hStops
      | wake => exact hOwes.elim
  | probe =>
      rename_i next
      cases hIs : b.isClosed with
      | true => simp [hIs, Act.stops] at hStops
      | false => exact hOwes
  | consult clock => exact hOwes clock
  | adjust => exact hOwes
  | turn hPath => exact hLive _ _ hOwes hPath
  | cancel | wake => exact hOwes.elim
  | refuse | note => simp [Act.stops] at hStops

end Producer

namespace Crossing

variable {env : Environment} {capacity : Nat} {stopped : Bool} {starts : List (Emission Process)}
  {h : History} {s : Crossing}

/-- A producer that has had no reason to stop owes what it owed at the start. -/
theorem Course.owes {k : Nat} {start : Emission Process} {K : Process → Prop}
    (course : Course env (opening capacity stopped starts) h s) (hGet : starts[k]? = some start)
    (hStart : start.Concludes K)
    (hLive : ∀ process path, K process → process.Live path → (process.deliver env path).Concludes K)
    (hNone : ∀ act, .produced k act ∈ h → act.stops = false) :
    ∃ p, s.producers[k]? = some p ∧ p.Owes K := by
  induction course with
  | start => exact ⟨.saying start, by simp [opening, hGet], hStart⟩
  | step prior last ih =>
      obtain ⟨p, hSame, hOwes⟩ := ih fun act hMem => hNone act (List.mem_append_left _ hMem)
      cases last with
      | @produce b j act other q hOther move =>
          by_cases hIs : j = k
          · subst hIs
            obtain rfl : other = p := Option.some.inj (hOther.symm.trans hSame)
            obtain ⟨hLt, -⟩ := List.getElem?_eq_some_iff.mp hOther
            exact ⟨q, List.getElem?_set_self hLt, move.owes hOwes hLive (hNone act (by simp))⟩
          · exact ⟨p, by simpa [List.getElem?_set_ne hIs] using hSame, hOwes⟩
      | read move => exact ⟨p, hSame, hOwes⟩
      | stop => exact ⟨p, hSame, hOwes⟩

/-- A plan of which no job is left has stopped for a reason. -/
theorem stopped_of_finished {k : Nat} {plan : Plan} {seed : Solution} {scope : Scope} {p : Process}
    (course : Course env (opening capacity stopped starts) h s)
    (hStart : starts[k]? = some (plan.start env seed scope))
    (hGet : s.producers[k]? = some (.saying (.done p))) (hFinished : p.Finished) : s.Stopped h k := by
  by_contra hNot
  have hNone : ∀ act, .produced k act ∈ h → act.stops = false := by
    intro act hMem
    rw [← Bool.not_eq_true]
    exact fun hStops => hNot ⟨p, act, hGet, hFinished, hMem, hStops⟩
  -- Without a reason to stop, what the plan has said is one of its runs, and that is not over.
  let K (process : Process) : Prop :=
    ∃ steps t, Run env (plan.start env seed scope) steps t process ∧ t.isOver = false
  have hFirst : (plan.start env seed scope).Concludes K :=
    Emission.concludes_of_says fun t process hSays hOpen => ⟨0, t, .start hSays, hOpen⟩
  have hLive : ∀ process path, K process → process.Live path →
      (process.deliver env path).Concludes K := by
    rintro process path ⟨steps, t, run, hOpen⟩ hPath
    refine Emission.concludes_of_says fun u next hSays hRest => ⟨_, _, run.step hPath hSays, ?_⟩
    simp only [Trace.isOver, Bool.or_eq_false_iff] at hOpen hRest
    simp [Trace.isOver, hOpen, hRest]
  obtain ⟨q, hSame, hOwes⟩ := course.owes hStart hFirst hLive hNone
  obtain rfl := Option.some.inj (hGet.symm.trans hSame)
  obtain ⟨steps, t, run, hOpen⟩ := hOwes
  exact absurd ((plan.keeps run).settled hFinished) (by simp [hOpen])

end Crossing

end SolutionFlow
