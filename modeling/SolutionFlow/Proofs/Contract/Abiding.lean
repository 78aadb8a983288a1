import SolutionFlow.Proofs.Flow.Trace

/-! What an operator of one argument owes to the stream that it makes. It closes its stream no
sooner than its argument, says that it is over when its argument does, and hands on failures. That
its end can be trusted is a second duty, which a slice does not have. Both are proved of single
answers here and hold of all that the operator ever says. -/
namespace SolutionFlow

namespace Trace

/-- What an operator has said keeps the order, and tells of the end of what it has heard. -/
structure Abides (heard said : Trace) : Prop where
  orderly : said.Orderly
  closed : said.ended = true ∨ said.refused = true → heard.ended = true ∨ heard.refused = true
  settled : heard.isOver = true → said.isOver = true
  failed : heard.failed = true → said.failed = true

/-- An operator has ended only with what it has heard, and not after a failure of its own. -/
structure Vouches (heard said : Trace) : Prop where
  ended : said.ended = true → heard.ended = true
  failed : said.failed = true →
    heard.failed = true ∨ heard.ended = true ∨ heard.refused = true
  certified : said.ended = true → said.failed = true → heard.failed = true

theorem Vouches.certified_of {heard said : Trace} (h : Vouches heard said)
    (hHeard : heard.Certified) : said.Certified := by
  rintro ⟨hEnded, hFailed⟩
  exact hHeard ⟨h.ended hEnded, h.certified hEnded hFailed⟩

theorem isOver_append (t u : Trace) : (t ++ u).isOver = (t.isOver || u.isOver) := by
  simp only [isOver, ended_append, refused_append, failed_append]
  cases t.ended <;> cases t.refused <;> cases t.failed <;> simp

end Trace

namespace Event

/-- An answer to an event that keeps the order. `shut` tells that the operator has closed its stream
before, and need not say so again. -/
def Answered (shut : Prop) : Event → Trace → Prop
  | .row _ true, t => t.Orderly ∧ t.ended = false ∧ t.refused = false
  | .row _ false, t => t.Orderly ∧ (t.isOver = true ∨ shut)
  | .finish, t => t.Orderly ∧ (t.isOver = true ∨ shut)
  | .fail error, t => t = [.fail error]

/-- An answer to an event that ends the stream only with the argument, and fails it only in place of
the end or of an acceptance. -/
def Honest : Event → Trace → Prop
  | .row _ more, t => t.ended = false ∧ (more = true → t.failed = false)
  | .finish, t => t.Certified
  | .fail _, t => t.ended = false

end Event

namespace Pipe

variable {σ : Type} {p : Pipe σ} {Fit Shut : σ → Prop}

/-- All answers of an operator keep the order, as long as its state is fit, which it stays. -/
structure Dutiful (p : Pipe σ) (Fit Shut : σ → Prop) : Prop where
  answered : ∀ {s e t s'}, Fit s → p.Relays s e t s' → e.Answered (Shut s) t
  fit : ∀ {s e t s'}, Fit s → p.Relays s e t s' → Fit s'
  shut : ∀ {s e t s'}, p.Relays s e t s' → Shut s' → Shut s ∨ t.isOver = true

/-- All answers of an operator are honest. -/
def Honest (p : Pipe σ) : Prop := ∀ {s e t s'}, p.Relays s e t s' → e.Honest t

/-- One answer more keeps the order. -/
theorem abides_concat {heard said t : Trace} {e : Event} {shut : Prop}
    (h : Trace.Abides heard said) (hOrderly : Trace.Orderly (heard ++ [e]))
    (hShut : shut → said.isOver = true) (hAnswer : e.Answered shut t) :
    Trace.Abides (heard ++ [e]) (said ++ t) := by
  have hOpen := (Trace.orderly_concat.mp hOrderly).2
  have hRest : ∀ hT : t.Orderly, (said.ended = true ∨ said.refused = true →
      ∀ x ∈ t, x.isFailure = true) → Trace.Orderly (said ++ t) :=
    fun hT hFailures => Trace.orderly_append.mpr ⟨h.orderly, hT, hFailures⟩
  cases e with
  | fail error =>
      obtain rfl : t = [.fail error] := hAnswer
      refine ⟨hRest (Trace.orderly_singleton _) (by simp), ?_, by simp [Trace.isOver], by simp⟩
      simpa using h.closed
  | finish =>
      have hStill : ¬(said.ended = true ∨ said.refused = true) := by
        intro hClosed
        simpa using hOpen (h.closed hClosed)
      refine ⟨hRest hAnswer.1 fun hClosed => absurd hClosed hStill, by simp, fun _ => ?_, ?_⟩
      · rw [Trace.isOver_append, Bool.or_eq_true]
        exact hAnswer.2.symm.imp hShut id
      · simp only [Trace.failed_append, Trace.failed_cons, Bool.or_eq_true]
        rintro (hFailed | hFailed)
        · exact .inl (h.failed hFailed)
        · simp at hFailed
  | row row more =>
      have hStill : ¬(said.ended = true ∨ said.refused = true) := by
        intro hClosed
        simpa using hOpen (h.closed hClosed)
      have hFailed : Trace.failed (heard ++ [.row row more]) = true →
          Trace.failed (said ++ t) = true := by
        simp only [Trace.failed_append, Trace.failed_cons, Bool.or_eq_true]
        rintro (hFailed | hFailed)
        · exact .inl (h.failed hFailed)
        · simp at hFailed
      cases more with
      | true =>
          obtain ⟨hT, hEnded, hRefused⟩ := hAnswer
          refine ⟨hRest hT fun hClosed => absurd hClosed hStill, ?_, ?_, hFailed⟩
          · simpa [hEnded, hRefused] using h.closed
          · rw [Trace.isOver_append, Trace.isOver_append, Bool.or_eq_true, Bool.or_eq_true]
            exact fun hOver => Or.inl (h.settled (by simpa [Trace.isOver] using hOver))
      | false =>
          refine ⟨hRest hAnswer.1 fun hClosed => absurd hClosed hStill, by simp, fun _ => ?_, hFailed⟩
          rw [Trace.isOver_append, Bool.or_eq_true]
          exact hAnswer.2.symm.imp hShut id

/-- All that a dutiful operator says abides by what it has heard. -/
theorem Dutiful.abides (duty : p.Dutiful Fit Shut) {start s : σ} {heard said : Trace}
    (hFit : Fit start) (hShut : ¬Shut start) (passes : p.Passes start heard said s)
    (hOrderly : heard.Orderly) : Trace.Abides heard said := by
  suffices all : Trace.Abides heard said ∧ Fit s ∧ (Shut s → said.isOver = true) from all.1
  induction passes with
  | nil => exact ⟨⟨Trace.orderly_nil, by simp, by simp [Trace.isOver], by simp⟩, hFit,
      fun hNow => absurd hNow hShut⟩
  | snoc prior last ih =>
      obtain ⟨hAbides, hFit, hShut⟩ := ih hOrderly.of_append
      refine ⟨abides_concat hAbides hOrderly hShut (duty.answered hFit last), duty.fit hFit last,
        fun hNow => ?_⟩
      rw [Trace.isOver_append, Bool.or_eq_true]
      exact (duty.shut last hNow).imp hShut id

/-- One honest answer more can be trusted. -/
theorem vouches_concat {heard said t : Trace} {e : Event} (h : Trace.Vouches heard said)
    (hOrderly : Trace.Orderly (heard ++ [e])) (hAnswer : e.Honest t) :
    Trace.Vouches (heard ++ [e]) (said ++ t) := by
  have hOpen := (Trace.orderly_concat.mp hOrderly).2
  have hKeep : said.failed = true → Trace.failed (heard ++ [e]) = true ∨
      Trace.ended (heard ++ [e]) = true ∨ Trace.refused (heard ++ [e]) = true := by
    simp only [Trace.failed_append, Trace.ended_append, Trace.refused_append, Bool.or_eq_true]
    exact fun hFailed => (h.failed hFailed).imp .inl (Or.imp .inl .inl)
  cases e with
  | fail error =>
      have hEnded : t.ended = false := hAnswer
      refine ⟨?_, by simp, by simp⟩
      simpa [hEnded] using h.ended
  | finish =>
      have hCertified : t.Certified := hAnswer
      refine ⟨by simp, by simp, ?_⟩
      simp only [Trace.ended_append, Trace.failed_append, Bool.or_eq_true]
      have hStill : ¬(heard.ended = true ∨ heard.refused = true) := by simpa using hOpen
      rintro (hSaid | hNow) (hBefore | hFails)
      · exact absurd (.inl (h.ended hSaid)) hStill
      · exact absurd (.inl (h.ended hSaid)) hStill
      · exact .inl ((h.failed hBefore).resolve_right hStill)
      · exact absurd ⟨hNow, hFails⟩ hCertified
  | row row more =>
      obtain ⟨hEnded, hFailed⟩ := hAnswer
      have hStill : ¬(heard.ended = true ∨ heard.refused = true) := by simpa using hOpen
      have hSaid : said.ended = false := by
        rw [← Bool.not_eq_true]
        exact fun hSaid => hStill (.inl (h.ended hSaid))
      refine ⟨by simp [hSaid, hEnded], ?_, by simp [hSaid, hEnded]⟩
      rw [Trace.failed_append, Bool.or_eq_true]
      rintro (hBefore | hFails)
      · exact hKeep hBefore
      · cases more with
        | true => simp [hFailed rfl] at hFails
        | false => simp

/-- All that an honest operator says can be trusted as far as its argument can. -/
theorem Honest.vouches (honest : p.Honest) {start s : σ} {heard said : Trace}
    (passes : p.Passes start heard said s) (hOrderly : heard.Orderly) :
    Trace.Vouches heard said := by
  induction passes with
  | nil => exact ⟨by simp, by simp, by simp⟩
  | snoc prior last ih => exact vouches_concat (ih hOrderly.of_append) hOrderly (honest last)

end Pipe

end SolutionFlow
