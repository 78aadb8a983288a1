import SolutionFlow.Flow.Environment

/-! Traces of streams. A trace holds what a stream has said to its consumer, in order and with the
replies to its rows. `Emission.Says` relates an emission to the traces that it can leave with a
consumer that is there; the replies and what the clock tells are left open. -/
namespace SolutionFlow

/-- One thing that a stream says: a row, with the reply to it, the end, or a failure. -/
inductive Event where
  | row (row : Solution) (more : Bool)
  | finish
  | fail (error : QueryError)

namespace Event

def isFinish : Event → Bool
  | .finish => true
  | _ => false

def isRefusal : Event → Bool
  | .row _ more => !more
  | _ => false

def isFailure : Event → Bool
  | .fail _ => true
  | _ => false

/-- The row of an event, if it was accepted. -/
def accepted? : Event → Option Solution
  | .row solution true => some solution
  | _ => none

/-- Whether a stream has nothing more to give after this: it has ended, or a row was refused. -/
def closes (e : Event) : Bool := e.isFinish || e.isRefusal

end Event

abbrev Trace := List Event

namespace Trace

def ended (t : Trace) : Bool := t.any Event.isFinish

def refused (t : Trace) : Bool := t.any Event.isRefusal

def failed (t : Trace) : Bool := t.any Event.isFailure

/-- The accepted rows, in order. -/
def accepted (t : Trace) : List Solution := t.filterMap Event.accepted?

/-- After its end, and after a refusal, a stream may only report failures. -/
def Orderly (t : Trace) : Prop := t.Pairwise fun a b => a.closes = true → b.isFailure = true

/-- A stream that has ended has not failed, so that its end tells that its rows are complete. -/
def Certified (t : Trace) : Prop := ¬(t.ended = true ∧ t.failed = true)

/-- Whether a stream has told in one way or other that it is over. -/
def isOver (t : Trace) : Bool := t.ended || t.refused || t.failed

section Parts

variable (t u : Trace) (row : Solution) (more : Bool) (error : QueryError)

@[simp]
theorem ended_nil : Trace.ended [] = false := rfl

@[simp]
theorem refused_nil : Trace.refused [] = false := rfl

@[simp]
theorem failed_nil : Trace.failed [] = false := rfl

@[simp]
theorem accepted_nil : Trace.accepted [] = [] := rfl

@[simp]
theorem ended_append : Trace.ended (t ++ u) = (t.ended || u.ended) := List.any_append

@[simp]
theorem refused_append : Trace.refused (t ++ u) = (t.refused || u.refused) := List.any_append

@[simp]
theorem failed_append : Trace.failed (t ++ u) = (t.failed || u.failed) := List.any_append

@[simp]
theorem accepted_append : Trace.accepted (t ++ u) = t.accepted ++ u.accepted :=
  List.filterMap_append

@[simp]
theorem ended_cons (e : Event) : Trace.ended (e :: t) = (e.isFinish || t.ended) := rfl

@[simp]
theorem refused_cons (e : Event) : Trace.refused (e :: t) = (e.isRefusal || t.refused) := rfl

@[simp]
theorem failed_cons (e : Event) : Trace.failed (e :: t) = (e.isFailure || t.failed) := rfl

@[simp]
theorem accepted_row_true : Trace.accepted (.row row true :: t) = row :: t.accepted := rfl

@[simp]
theorem accepted_row_false : Trace.accepted (.row row false :: t) = t.accepted := rfl

@[simp]
theorem accepted_finish : Trace.accepted (.finish :: t) = t.accepted := rfl

@[simp]
theorem accepted_fail : Trace.accepted (.fail error :: t) = t.accepted := rfl

end Parts

attribute [simp] Event.isFinish Event.isRefusal Event.isFailure

theorem closes_iff (t : Trace) :
    (∃ e ∈ t, e.closes = true) ↔ t.ended = true ∨ t.refused = true := by
  simp only [Event.closes, ended, refused, List.any_eq_true, Bool.or_eq_true]
  constructor
  · rintro ⟨e, hMem, hFinish | hRefusal⟩
    · exact .inl ⟨e, hMem, hFinish⟩
    · exact .inr ⟨e, hMem, hRefusal⟩
  · rintro (⟨e, hMem, hFinish⟩ | ⟨e, hMem, hRefusal⟩)
    · exact ⟨e, hMem, .inl hFinish⟩
    · exact ⟨e, hMem, .inr hRefusal⟩

/-- What follows an orderly beginning keeps the order if it is orderly by itself, and brings only
failures once the beginning has closed the stream. -/
theorem orderly_append {t u : Trace} :
    Orderly (t ++ u) ↔ t.Orderly ∧ u.Orderly ∧
      (t.ended = true ∨ t.refused = true → ∀ e ∈ u, e.isFailure = true) := by
  rw [← closes_iff, Orderly, List.pairwise_append]
  constructor
  · rintro ⟨hT, hU, hCross⟩
    exact ⟨hT, hU, fun ⟨a, hMem, hCloses⟩ b hB => hCross a hMem b hB hCloses⟩
  · rintro ⟨hT, hU, hCross⟩
    exact ⟨hT, hU, fun a hA b hB hCloses => hCross ⟨a, hA, hCloses⟩ b hB⟩

theorem orderly_nil : Orderly [] := List.Pairwise.nil

theorem orderly_singleton (e : Event) : Orderly [e] := List.pairwise_singleton _ e

/-- An orderly trace goes on with a row or an end only while the stream is open. -/
theorem orderly_concat {t : Trace} {e : Event} :
    Orderly (t ++ [e]) ↔ t.Orderly ∧
      (t.ended = true ∨ t.refused = true → e.isFailure = true) := by
  rw [orderly_append]
  simp [orderly_singleton]

theorem Orderly.of_append {t u : Trace} (h : Orderly (t ++ u)) : t.Orderly :=
  (orderly_append.mp h).1

/-- A stream that goes on with a row or an end has been open so far. -/
theorem Orderly.still_open {t : Trace} {e : Event} (h : Orderly (t ++ [e]))
    (hGoes : e.isFailure = false) : t.ended = false ∧ t.refused = false := by
  have hClosed := (orderly_concat.mp h).2
  rw [hGoes] at hClosed
  simpa using hClosed

/-- Behind nothing but failures, a stream neither ends nor is refused a row. -/
theorem open_of_failures {t : Trace} (h : ∀ e ∈ t, e.isFailure = true) :
    t.ended = false ∧ t.refused = false := by
  simp only [ended, refused, List.any_eq_false]
  refine ⟨fun e hMem => ?_, fun e hMem => ?_⟩
  all_goals
    have hFailure := h e hMem
    cases e <;> simp at hFailure ⊢

/-- A stream that keeps the order does not both end and have a row refused. -/
theorem Orderly.not_refused {t : Trace} (h : t.Orderly) (hEnded : t.ended = true) :
    t.refused = false := by
  induction t with
  | nil => rfl
  | cons e rest ih =>
      obtain ⟨hHead, hRest⟩ := List.pairwise_cons.mp h
      by_cases hCloses : e.closes = true
      · obtain ⟨hNoEnd, hNoRefusal⟩ := open_of_failures fun x hMem => hHead x hMem hCloses
        rw [ended_cons, hNoEnd, Bool.or_false] at hEnded
        rw [refused_cons, hNoRefusal, Bool.or_false]
        cases e with
        | finish => rfl
        | row row more => simp at hEnded
        | fail error => rfl
      · simp only [Event.closes, Bool.or_eq_true, not_or, Bool.not_eq_true] at hCloses
        rw [ended_cons, hCloses.1, Bool.false_or] at hEnded
        rw [refused_cons, hCloses.2, Bool.false_or]
        exact ih hRest hEnded

/-- In an orderly trace of which no row was refused, the end comes after all rows. -/
theorem eq_of_orderly {t : Trace} (hOrderly : t.Orderly) (hRefused : t.refused = false)
    (hFailed : t.failed = false) :
    t = t.accepted.map (.row · true) ++ if t.ended then [.finish] else [] := by
  induction t with
  | nil => rfl
  | cons e rest ih =>
      obtain ⟨hHead, hRest⟩ := List.pairwise_cons.mp hOrderly
      simp only [refused_cons, Bool.or_eq_false_iff, failed_cons] at hRefused hFailed
      cases e with
      | row row more =>
          obtain rfl : more = true := by simpa using hRefused.1
          exact congrArg (Event.row row true :: ·) (ih hRest hRefused.2 hFailed.2)
      | finish =>
          have hEmpty : rest = [] := by
            rw [List.eq_nil_iff_forall_not_mem]
            intro x hMem
            have hFailure : Trace.failed rest = true :=
              List.any_eq_true.mpr ⟨x, hMem, hHead x hMem rfl⟩
            simp [hFailure] at hFailed
          subst hEmpty
          simp
      | fail error => simp at hFailed

end Trace

namespace Emission

variable {α β : Type}

/-- An emission can say `t` to a consumer that is not gone, and leave a value behind. -/
def Says : Emission α → Trace → α → Prop
  | .done value, t, v => t = [] ∧ v = value
  | .emit row next, t, v => ∃ more u, t = .row row more :: u ∧ (next more).Says u v
  | .finish next, t, v => ∃ u, t = .finish :: u ∧ next.Says u v
  | .fail error next, t, v => ∃ u, t = .fail error :: u ∧ next.Says u v
  | .probe next, t, v => (next false).Says t v
  | .consult next, t, v => ∃ clock, (next clock).Says t v
  | .adjust _ next, t, v => next.Says t v

theorem says_bind {e : Emission α} {f : α → Emission β} {t : Trace} {v : β} :
    (e >>= f).Says t v ↔ ∃ t₁ w t₂, e.Says t₁ w ∧ (f w).Says t₂ v ∧ t = t₁ ++ t₂ := by
  change (e.bind f).Says t v ↔ _
  induction e generalizing t with
  | done value =>
      constructor
      · exact fun h => ⟨[], value, t, ⟨rfl, rfl⟩, h, rfl⟩
      · rintro ⟨_, _, t₂, ⟨rfl, rfl⟩, hRest, rfl⟩
        exact hRest
  | emit row next ih =>
      simp only [bind, Says, ih]
      constructor
      · rintro ⟨more, u, rfl, t₁, w, t₂, hFirst, hRest, rfl⟩
        exact ⟨_, w, t₂, ⟨more, t₁, rfl, hFirst⟩, hRest, rfl⟩
      · rintro ⟨_, w, t₂, ⟨more, t₁, rfl, hFirst⟩, hRest, rfl⟩
        exact ⟨more, t₁ ++ t₂, rfl, t₁, w, t₂, hFirst, hRest, rfl⟩
  | finish next ih =>
      simp only [bind, Says, ih]
      constructor
      · rintro ⟨u, rfl, t₁, w, t₂, hFirst, hRest, rfl⟩
        exact ⟨_, w, t₂, ⟨t₁, rfl, hFirst⟩, hRest, rfl⟩
      · rintro ⟨_, w, t₂, ⟨t₁, rfl, hFirst⟩, hRest, rfl⟩
        exact ⟨t₁ ++ t₂, rfl, t₁, w, t₂, hFirst, hRest, rfl⟩
  | fail error next ih =>
      simp only [bind, Says, ih]
      constructor
      · rintro ⟨u, rfl, t₁, w, t₂, hFirst, hRest, rfl⟩
        exact ⟨_, w, t₂, ⟨t₁, rfl, hFirst⟩, hRest, rfl⟩
      · rintro ⟨_, w, t₂, ⟨t₁, rfl, hFirst⟩, hRest, rfl⟩
        exact ⟨t₁ ++ t₂, rfl, t₁, w, t₂, hFirst, hRest, rfl⟩
  | probe next ih => simp only [bind, Says, ih]
  | consult next ih =>
      simp only [bind, Says, ih]
      constructor
      · rintro ⟨clock, t₁, w, t₂, hFirst, hRest, rfl⟩
        exact ⟨t₁, w, t₂, ⟨clock, hFirst⟩, hRest, rfl⟩
      · rintro ⟨t₁, w, t₂, ⟨clock, hFirst⟩, hRest, rfl⟩
        exact ⟨clock, t₁, w, t₂, hFirst, hRest, rfl⟩
  | adjust clock next ih => simp only [bind, Says, ih]

@[simp]
theorem says_pure {value v : α} {t : Trace} :
    (pure value : Emission α).Says t v ↔ t = [] ∧ v = value := Iff.rfl

/-- A beginning that says nothing and leaves one value behind is not heard. -/
theorem says_bind_silent {e : Emission α} {f : α → Emission β} {w : α} {t : Trace} {v : β}
    (hSilent : ∀ u x, e.Says u x ↔ u = [] ∧ x = w) : (e >>= f).Says t v ↔ (f w).Says t v := by
  rw [says_bind]
  constructor
  · rintro ⟨t₁, x, t₂, hFirst, hRest, rfl⟩
    obtain ⟨rfl, rfl⟩ := (hSilent t₁ x).mp hFirst
    exact hRest
  · intro hRest
    exact ⟨[], w, t, (hSilent [] w).mpr ⟨rfl, rfl⟩, hRest, rfl⟩

/-- What is done with the value at the end is not heard. -/
@[simp]
theorem says_map {e : Emission α} {f : α → β} {t : Trace} {v : β} :
    (f <$> e).Says t v ↔ ∃ w, e.Says t w ∧ v = f w := by
  rw [← bind_pure_comp, says_bind]
  constructor
  · rintro ⟨t₁, w, t₂, hSays, ⟨rfl, rfl⟩, rfl⟩
    exact ⟨w, by simpa using hSays, rfl⟩
  · rintro ⟨w, hSays, rfl⟩
    exact ⟨t, w, [], hSays, ⟨rfl, rfl⟩, by simp⟩

@[simp]
theorem says_push {row : Solution} {more : Bool} {t : Trace} :
    (push row).Says t more ↔ t = [.row row more] := by
  constructor
  · rintro ⟨reply, _, rfl, rfl, rfl⟩
    rfl
  · rintro rfl
    exact ⟨more, [], rfl, rfl, rfl⟩

@[simp]
theorem says_finished {t : Trace} {v : Unit} : finished.Says t v ↔ t = [.finish] := by
  simp [finished, Says]

@[simp]
theorem says_report {error : QueryError} {t : Trace} {v : Unit} :
    (report error).Says t v ↔ t = [.fail error] := by
  simp [report, Says]

@[simp]
theorem says_isGone {gone : Bool} {t : Trace} :
    isGone.Says t gone ↔ t = [] ∧ gone = false := Iff.rfl

@[simp]
theorem says_timed {act : Timed α} {v : α} {t : Trace} :
    (timed act).Says t v ↔ t = [] ∧ ∃ clock, v = (act clock).1 := by
  constructor
  · rintro ⟨clock, rfl, rfl⟩
    exact ⟨rfl, clock, rfl⟩
  · rintro ⟨rfl, clock, rfl⟩
    exact ⟨clock, rfl, rfl⟩

/-- To a consumer that is there, nothing is said while something is asked for. -/
@[simp]
theorem says_asking {env : Environment} {act : Surroundings → Timed α} {v : α} {t : Trace} :
    (asking env act).Says t v ↔ t = [] ∧ ∃ clock, v = (act env.surroundings clock).1 :=
  (says_bind_silent fun _ _ => says_isGone).trans says_timed

@[simp]
theorem says_time {now : Nat} {t : Trace} :
    time.Says t now ↔ t = [] ∧ ∃ clock : Clock, now = clock.time := by
  simp [time, Says]

@[simp]
theorem says_reportIfHeard {error : QueryError} {t : Trace} {v : Unit} :
    (reportIfHeard error).Says t v ↔ t = [.fail error] := by
  simp [reportIfHeard, says_bind]

/-- All rows are accepted, or they are handed over up to the first that is refused. -/
theorem says_pushAll {rows : List Solution} {t : Trace} {more : Bool}
    (h : (pushAll rows).Says t more) :
    more = true ∧ t = rows.map (.row · true) ∨
      more = false ∧ ∃ given row rest, rows = given ++ row :: rest ∧
        t = given.map (.row · true) ++ [.row row false] := by
  induction rows generalizing t with
  | nil =>
      obtain ⟨rfl, rfl⟩ := h
      exact .inl ⟨rfl, rfl⟩
  | cons row rest ih =>
      obtain ⟨reply, u, rfl, hRest⟩ := h
      cases reply with
      | false =>
          obtain ⟨rfl, rfl⟩ := hRest
          exact .inr ⟨rfl, [], row, rest, rfl, rfl⟩
      | true =>
          obtain ⟨rfl, rfl⟩ | ⟨rfl, given, other, later, rfl, rfl⟩ := ih hRest
          · exact .inl ⟨rfl, rfl⟩
          · exact .inr ⟨rfl, row :: given, other, later, rfl, rfl⟩

end Emission

namespace Pipe

variable {σ α : Type}

/-- An operator in state `s` can answer an event of its argument by saying `t`. -/
def Relays (p : Pipe σ) (s : σ) : Event → Trace → σ → Prop
  | .row row more, t, s' => (p.onRow s row).Says t (more, s')
  | .finish, t, s' => (p.onFinish s).Says t s'
  | .fail error, t, s' => (p.onFail s error).Says t s'

/-- An operator can turn what its argument has said into what it has said itself. -/
inductive Passes (p : Pipe σ) (start : σ) : Trace → Trace → σ → Prop where
  | nil : Passes p start [] [] start
  | snoc {heard said t : Trace} {e : Event} {s s' : σ}
      (prior : Passes p start heard said s) (last : p.Relays s e t s') :
      Passes p start (heard ++ [e]) (said ++ t) s'

theorem Passes.trans {p : Pipe σ} {first second third : σ} {heard said heard' said' : Trace}
    (left : p.Passes first heard said second) (right : p.Passes second heard' said' third) :
    p.Passes first (heard ++ heard') (said ++ said') third := by
  induction right with
  | nil => simpa using left
  | snoc prior last ih => simpa [← List.append_assoc] using ih.snoc last

theorem Passes.cons {p : Pipe σ} {first second third : σ} {heard said t : Trace} {e : Event}
    (head : p.Relays first e t second) (rest : p.Passes second heard said third) :
    p.Passes first (e :: heard) (t ++ said) third := by
  have single : p.Passes first ([] ++ [e]) ([] ++ t) second := Passes.nil.snoc head
  simpa using single.trans rest

/-- What comes out of an operator is what it makes of the events that go in. -/
theorem passes_of_through {p : Pipe σ} {s s' : σ} {e : Emission α} {t : Trace} {v : α}
    (h : (p.through s e).Says t (v, s')) : ∃ heard, e.Says heard v ∧ p.Passes s heard t s' := by
  induction e generalizing s t with
  | done value =>
      obtain ⟨rfl, hEq⟩ := h
      obtain ⟨rfl, rfl⟩ := Prod.mk.inj hEq
      exact ⟨[], ⟨rfl, rfl⟩, .nil⟩
  | emit row next ih =>
      obtain ⟨t₁, ⟨more, middle⟩, t₂, hAnswer, hRest, rfl⟩ := Emission.says_bind.mp h
      obtain ⟨heard, hNext, hPasses⟩ := ih more hRest
      exact ⟨.row row more :: heard, ⟨more, heard, rfl, hNext⟩, .cons hAnswer hPasses⟩
  | finish next ih =>
      obtain ⟨t₁, middle, t₂, hAnswer, hRest, rfl⟩ := Emission.says_bind.mp h
      obtain ⟨heard, hNext, hPasses⟩ := ih hRest
      exact ⟨.finish :: heard, ⟨heard, rfl, hNext⟩, .cons hAnswer hPasses⟩
  | fail error next ih =>
      obtain ⟨t₁, middle, t₂, hAnswer, hRest, rfl⟩ := Emission.says_bind.mp h
      obtain ⟨heard, hNext, hPasses⟩ := ih hRest
      exact ⟨.fail error :: heard, ⟨heard, rfl, hNext⟩, .cons hAnswer hPasses⟩
  | probe next ih => exact ih false h
  | consult next ih =>
      obtain ⟨clock, hNext⟩ := h
      obtain ⟨heard, hSays, hPasses⟩ := ih clock hNext
      exact ⟨heard, ⟨clock, hSays⟩, hPasses⟩
  | adjust clock next ih => exact ih h

end Pipe

end SolutionFlow
