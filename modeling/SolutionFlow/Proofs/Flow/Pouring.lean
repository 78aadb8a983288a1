import SolutionFlow.Proofs.Flow.Run
import SolutionFlow.Proofs.Flow.Tower

/-! Rows that are poured out: pushed one after another whatever the replies are, with the end behind the
last. What an operator makes of them is all that it does about rows and an end, without a source that
stops at the first refusal. -/
namespace SolutionFlow

namespace Emission

variable {α β : Type}

/-- Pushes some rows one after another, whatever the replies are, and then ends. It leaves the replies
behind. -/
def pour : List Solution → Emission (List Bool)
  | [] => do
    finished
    return []
  | row :: rest => do
    let more ← push row
    let replies ← pour rest
    return more :: replies

/-- Something can always be said to a consumer that accepts all rows. -/
theorem exists_unrefused (e : Emission α) : ∃ t v, e.Says t v ∧ t.refused = false := by
  obtain ⟨t, hSays, hRefused, -⟩ := e.says_of_deliver (.starting 0) Recorder.isOpen_new
  exact ⟨t, _, hSays, hRefused⟩

end Emission

namespace Pipe

open Emission

variable {σ α β : Type} (p : Pipe σ) {s s' : σ} {row : Solution} {rest : List Solution} {t : Trace}
  {replies : List Bool}

/-- What is made of the value at the end is nothing to the operator. -/
theorem through_map (s : σ) (f : α → β) (e : Emission α) :
    p.through s (f <$> e) = (fun r => (f r.1, r.2)) <$> p.through s e := by
  rw [← bind_pure_comp, ← bind_pure_comp]
  exact p.through_bind s e fun value => pure (f value)

theorem through_push (s : σ) (row : Solution) (f : Bool → Emission α) :
    p.through s (push row >>= f) = p.onRow s row >>= fun r => p.through r.2 (f r.1) := rfl

theorem through_finished (s : σ) (e : Emission α) :
    p.through s (finished >>= fun _ => e) = p.onFinish s >>= fun s => p.through s e := rfl

theorem through_pour_nil (s : σ) :
    p.through s (pour []) = (fun s => ([], s)) <$> p.onFinish s := by
  rw [pour, through_finished, ← bind_pure_comp]
  rfl

theorem through_pour_cons (s : σ) (row : Solution) (rest : List Solution) :
    p.through s (pour (row :: rest)) =
      p.onRow s row >>= fun r => (fun q => (r.1 :: q.1, q.2)) <$> p.through r.2 (pour rest) := by
  simp only [pour, through_push, bind_pure_comp, through_map]

/-- At the end of what is poured out, an operator answers the end. -/
theorem says_through_nil :
    (p.through s (pour [])).Says t (replies, s') ↔ (p.onFinish s).Says t s' ∧ replies = [] := by
  rw [through_pour_nil, says_map]
  constructor
  · rintro ⟨last, hSays, hEq⟩
    obtain ⟨rfl, rfl⟩ := Prod.mk.inj hEq
    exact ⟨hSays, rfl⟩
  · rintro ⟨hSays, rfl⟩
    exact ⟨s', hSays, rfl⟩

/-- Before that, it answers the first row and then the others. -/
theorem says_through_cons :
    (p.through s (pour (row :: rest))).Says t (replies, s') ↔
      ∃ first more middle later others, (p.onRow s row).Says first (more, middle) ∧
        (p.through middle (pour rest)).Says later (others, s') ∧ t = first ++ later ∧
        replies = more :: others := by
  rw [through_pour_cons, says_bind]
  constructor
  · rintro ⟨first, ⟨more, middle⟩, later, hFirst, hRest, rfl⟩
    obtain ⟨⟨others, last⟩, hLater, hEq⟩ := says_map.mp hRest
    obtain ⟨rfl, rfl⟩ := Prod.mk.inj hEq
    exact ⟨first, more, middle, later, others, hFirst, hLater, rfl, rfl⟩
  · rintro ⟨first, more, middle, later, others, hFirst, hLater, rfl, rfl⟩
    exact ⟨first, (more, middle), later, hFirst, says_map.mpr ⟨(others, s'), hLater, rfl⟩, rfl⟩

end Pipe

section

variable {env : Environment} {σ : Type} {p : Pipe σ} {wrap : σ → Operator}
  (hReact : ∀ s, (wrap s).react env 0 = p.react s wrap)

include hReact

/-- An operator whose state is kept in another form makes the same of an emission. -/
theorem Operator.through_wrap {α : Type} (s : σ) (e : Emission α) :
    (Operator.pipe env 0).through (wrap s) e = (fun r => (r.1, wrap r.2)) <$> p.through s e := by
  induction e generalizing s with
  | done value => rfl
  | emit row next ih =>
      change ((wrap s).react env 0).onRow row >>= (fun r => (pipe env 0).through r.2 (next r.1)) =
        (fun r => (r.1, wrap r.2)) <$> (p.onRow s row >>= fun r => p.through r.2 (next r.1))
      simp only [hReact, Pipe.react, bind_assoc, pure_bind, ih, map_bind]
  | finish next ih =>
      change ((wrap s).react env 0).onFinish >>= (fun op => (pipe env 0).through op next) =
        (fun r => (r.1, wrap r.2)) <$> (p.onFinish s >>= fun s => p.through s next)
      simp only [hReact, Pipe.react, bind_assoc, pure_bind, ih, map_bind]
  | fail error next ih =>
      change ((wrap s).react env 0).onFail error >>= (fun op => (pipe env 0).through op next) =
        (fun r => (r.1, wrap r.2)) <$> (p.onFail s error >>= fun s => p.through s next)
      simp only [hReact, Pipe.react, bind_assoc, pure_bind, ih, map_bind]
  | probe next ih => exact congrArg Emission.probe (funext fun gone => ih gone s)
  | consult next ih => exact congrArg Emission.consult (funext fun clock => ih clock s)
  | adjust clock next ih => exact congrArg (Emission.adjust clock) (ih s)

/-- What an operator of one argument says at its start is what it makes of its argument. -/
theorem Process.underOne_wrap (hOpens : ∀ s, (wrap s).opens = false) (first : σ)
    (arg : Emission Process) :
    underOne env (wrap first) arg = (fun r => .node (wrap r.2) [r.1]) <$> p.through first arg := by
  rw [underOne_of_not_opens (hOpens first), Operator.through_wrap hReact, bind_map_left, bind_pure_comp]

end

end SolutionFlow
