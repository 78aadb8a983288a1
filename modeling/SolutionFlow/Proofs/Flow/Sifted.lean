import Mathlib.Data.Set.Insert
import SolutionFlow.Proofs.Flow.Run
import SolutionFlow.Proofs.Flow.Tower

/-! Runs of filters. While whoever looks at the clock sees one of some clocks on which the condition comes to the
same verdict about each row, what a filter says is what its argument says, less the rows that are not
chosen. And a filter can say whatever is left so of what its argument can say. -/
namespace SolutionFlow

namespace Emission

variable {α β : Type} {clocks : Set Clock} {t : Trace} {v : α}

/-- An emission can say `t` to a consumer that is not gone, and leave a value behind, while each look at the
clock shows one of these clocks. -/
def SaysOn (clocks : Set Clock) : Emission α → Trace → α → Prop
  | .done value, t, v => t = [] ∧ v = value
  | .emit row next, t, v => ∃ more u, t = .row row more :: u ∧ (next more).SaysOn clocks u v
  | .finish next, t, v => ∃ u, t = .finish :: u ∧ next.SaysOn clocks u v
  | .fail error next, t, v => ∃ u, t = .fail error :: u ∧ next.SaysOn clocks u v
  | .probe next, t, v => (next false).SaysOn clocks t v
  | .consult next, t, v => ∃ clock ∈ clocks, (next clock).SaysOn clocks t v
  | .adjust _ next, t, v => next.SaysOn clocks t v

/-- On all clocks an emission can say what it can say at all. -/
theorem saysOn_univ {e : Emission α} : e.SaysOn Set.univ t v ↔ e.Says t v := by
  induction e generalizing t with
  | done value => rfl
  | emit row next ih => simp only [SaysOn, Says, ih]
  | finish next ih => simp only [SaysOn, Says, ih]
  | fail error next ih => simp only [SaysOn, Says, ih]
  | probe next ih => exact ih false
  | consult next ih => simp only [SaysOn, Says, ih, Set.mem_univ, true_and]
  | adjust clock next ih => exact ih

theorem saysOn_bind {e : Emission α} {f : α → Emission β} {v : β} :
    (e >>= f).SaysOn clocks t v ↔
      ∃ t₁ w t₂, e.SaysOn clocks t₁ w ∧ (f w).SaysOn clocks t₂ v ∧ t = t₁ ++ t₂ := by
  change (e.bind f).SaysOn clocks t v ↔ _
  induction e generalizing t with
  | done value =>
      constructor
      · exact fun h => ⟨[], value, t, ⟨rfl, rfl⟩, h, rfl⟩
      · rintro ⟨_, _, t₂, ⟨rfl, rfl⟩, hRest, rfl⟩
        exact hRest
  | emit row next ih =>
      simp only [bind, SaysOn, ih]
      constructor
      · rintro ⟨more, u, rfl, t₁, w, t₂, hFirst, hRest, rfl⟩
        exact ⟨_, w, t₂, ⟨more, t₁, rfl, hFirst⟩, hRest, rfl⟩
      · rintro ⟨_, w, t₂, ⟨more, t₁, rfl, hFirst⟩, hRest, rfl⟩
        exact ⟨more, t₁ ++ t₂, rfl, t₁, w, t₂, hFirst, hRest, rfl⟩
  | finish next ih =>
      simp only [bind, SaysOn, ih]
      constructor
      · rintro ⟨u, rfl, t₁, w, t₂, hFirst, hRest, rfl⟩
        exact ⟨_, w, t₂, ⟨t₁, rfl, hFirst⟩, hRest, rfl⟩
      · rintro ⟨_, w, t₂, ⟨t₁, rfl, hFirst⟩, hRest, rfl⟩
        exact ⟨t₁ ++ t₂, rfl, t₁, w, t₂, hFirst, hRest, rfl⟩
  | fail error next ih =>
      simp only [bind, SaysOn, ih]
      constructor
      · rintro ⟨u, rfl, t₁, w, t₂, hFirst, hRest, rfl⟩
        exact ⟨_, w, t₂, ⟨t₁, rfl, hFirst⟩, hRest, rfl⟩
      · rintro ⟨_, w, t₂, ⟨t₁, rfl, hFirst⟩, hRest, rfl⟩
        exact ⟨t₁ ++ t₂, rfl, t₁, w, t₂, hFirst, hRest, rfl⟩
  | probe next ih => simp only [bind, SaysOn, ih]
  | consult next ih =>
      simp only [bind, SaysOn, ih]
      constructor
      · rintro ⟨clock, hClock, t₁, w, t₂, hFirst, hRest, rfl⟩
        exact ⟨t₁, w, t₂, ⟨clock, hClock, hFirst⟩, hRest, rfl⟩
      · rintro ⟨t₁, w, t₂, ⟨clock, hClock, hFirst⟩, hRest, rfl⟩
        exact ⟨clock, hClock, t₁, w, t₂, hFirst, hRest, rfl⟩
  | adjust clock next ih => simp only [bind, SaysOn, ih]

theorem saysOn_map {e : Emission α} {f : α → β} {v : β} :
    (f <$> e).SaysOn clocks t v ↔ ∃ w, e.SaysOn clocks t w ∧ v = f w := by
  rw [← bind_pure_comp, saysOn_bind]
  constructor
  · rintro ⟨t₁, w, t₂, hFirst, ⟨rfl, rfl⟩, rfl⟩
    exact ⟨w, by rwa [List.append_nil], rfl⟩
  · rintro ⟨w, hFirst, rfl⟩
    exact ⟨t, w, [], hFirst, ⟨rfl, rfl⟩, (List.append_nil t).symm⟩

theorem saysOn_push {row : Solution} {more : Bool} :
    (push row).SaysOn clocks t more ↔ t = [.row row more] := by
  constructor
  · rintro ⟨reply, _, rfl, rfl, rfl⟩
    rfl
  · rintro rfl
    exact ⟨more, [], rfl, rfl, rfl⟩

/-- What is asked for is asked for on one of these clocks. -/
theorem saysOn_asking {env : Environment} {act : Surroundings → Timed α} :
    (asking env act).SaysOn clocks t v ↔
      t = [] ∧ ∃ clock ∈ clocks, v = (act env.surroundings clock).1 := by
  constructor
  · rintro ⟨clock, hClock, rfl, rfl⟩
    exact ⟨rfl, clock, hClock, rfl⟩
  · rintro ⟨rfl, clock, hClock, rfl⟩
    exact ⟨clock, hClock, rfl, rfl⟩

end Emission

/-- A run in which each look at the clock shows one of these clocks. -/
inductive RunOn (clocks : Set Clock) (env : Environment) (start : Emission Process) :
    Nat → Trace → Process → Prop where
  | start {t : Trace} {p : Process} (first : start.SaysOn clocks t p) : RunOn clocks env start 0 t p
  | step {steps : Nat} {t u : Trace} {p q : Process} {path : List Nat}
      (prior : RunOn clocks env start steps t p) (hLive : p.Live path)
      (last : (p.deliver env path).SaysOn clocks u q) : RunOn clocks env start (steps + 1) (t ++ u) q

/-- On all clocks these are the runs. -/
theorem runOn_univ {env : Environment} {start : Emission Process} {steps : Nat} {t : Trace} {p : Process} :
    RunOn Set.univ env start steps t p ↔ Run env start steps t p := by
  constructor
  · intro run
    induction run with
    | start first => exact .start (Emission.saysOn_univ.mp first)
    | step prior hLive last ih => exact ih.step hLive (Emission.saysOn_univ.mp last)
  · intro run
    induction run with
    | start first => exact .start (Emission.saysOn_univ.mpr first)
    | step prior hLive last ih => exact ih.step hLive (Emission.saysOn_univ.mpr last)

/-- What is left of what a stream says when the rows are dropped that are not chosen. To them the reply is that
more is wanted. -/
inductive Trace.Sifted (chosen : Solution → Bool) : Trace → Trace → Prop where
  | nil : Sifted chosen [] []
  | keep {heard said : Trace} {row : Solution} {more : Bool} (hChosen : chosen row = true)
      (rest : Sifted chosen heard said) : Sifted chosen (.row row more :: heard) (.row row more :: said)
  | drop {heard said : Trace} {row : Solution} (hChosen : chosen row = false)
      (rest : Sifted chosen heard said) : Sifted chosen (.row row true :: heard) said
  | finish {heard said : Trace} (rest : Sifted chosen heard said) :
      Sifted chosen (.finish :: heard) (.finish :: said)
  | fail {heard said : Trace} {error : QueryError} (rest : Sifted chosen heard said) :
      Sifted chosen (.fail error :: heard) (.fail error :: said)

namespace Trace.Sifted

variable {chosen second : Solution → Bool} {heard heard' said said' t : Trace}

theorem append (h : Sifted chosen heard said) (hNext : Sifted chosen heard' said') :
    Sifted chosen (heard ++ heard') (said ++ said') := by
  induction h with
  | nil => exact hNext
  | keep hChosen _ ih => exact ih.keep hChosen
  | drop hChosen _ ih => exact ih.drop hChosen
  | finish _ ih => exact ih.finish
  | fail _ ih => exact ih.fail

theorem exists_append (h : Sifted chosen (heard ++ heard') t) :
    ∃ said said', t = said ++ said' ∧ Sifted chosen heard said ∧ Sifted chosen heard' said' := by
  induction heard generalizing t with
  | nil => exact ⟨[], t, rfl, .nil, h⟩
  | cons e rest ih =>
      cases h with
      | keep hChosen hRest =>
          obtain ⟨said, said', rfl, hFirst, hSecond⟩ := ih hRest
          exact ⟨_, said', rfl, hFirst.keep hChosen, hSecond⟩
      | drop hChosen hRest =>
          obtain ⟨said, said', rfl, hFirst, hSecond⟩ := ih hRest
          exact ⟨said, said', rfl, hFirst.drop hChosen, hSecond⟩
      | finish hRest =>
          obtain ⟨said, said', rfl, hFirst, hSecond⟩ := ih hRest
          exact ⟨_, said', rfl, hFirst.finish, hSecond⟩
      | fail hRest =>
          obtain ⟨said, said', rfl, hFirst, hSecond⟩ := ih hRest
          exact ⟨_, said', rfl, hFirst.fail, hSecond⟩

/-- The accepted rows are those that are chosen. -/
theorem accepted_eq (h : Sifted chosen heard said) : said.accepted = heard.accepted.filter chosen := by
  induction h with
  | nil => rfl
  | @keep _ _ _ more hChosen _ ih => cases more <;> simp [ih, hChosen]
  | drop hChosen _ ih => simp [ih, hChosen]
  | finish _ ih => exact ih
  | fail _ ih => exact ih

/-- To sift twice is to sift by both. -/
theorem exists_between_iff :
    (∃ t, Sifted chosen heard t ∧ Sifted second t said) ↔
      Sifted (fun row => chosen row && second row) heard said := by
  constructor
  · rintro ⟨t, hFirst, hSecond⟩
    induction hFirst generalizing said with
    | nil => cases hSecond; exact .nil
    | keep hChosen _ ih =>
        cases hSecond with
        | keep hOther hRest => exact (ih hRest).keep (by simp [hChosen, hOther])
        | drop hOther hRest => exact (ih hRest).drop (by simp [hOther])
    | drop hChosen _ ih => exact (ih hSecond).drop (by simp [hChosen])
    | finish _ ih =>
        cases hSecond with
        | finish hRest => exact (ih hRest).finish
    | fail _ ih =>
        cases hSecond with
        | fail hRest => exact (ih hRest).fail
  · intro h
    induction h with
    | nil => exact ⟨[], .nil, .nil⟩
    | keep hChosen _ ih =>
        obtain ⟨t, hFirst, hSecond⟩ := ih
        rw [Bool.and_eq_true] at hChosen
        exact ⟨_, hFirst.keep hChosen.1, hSecond.keep hChosen.2⟩
    | @drop _ _ row hChosen _ ih =>
        obtain ⟨t, hFirst, hSecond⟩ := ih
        cases hRow : chosen row with
        | true => exact ⟨_, hFirst.keep hRow, hSecond.drop (by simpa [hRow] using hChosen)⟩
        | false => exact ⟨t, hFirst.drop hRow, hSecond⟩
    | finish _ ih =>
        obtain ⟨t, hFirst, hSecond⟩ := ih
        exact ⟨_, hFirst.finish, hSecond.finish⟩
    | fail _ ih =>
        obtain ⟨t, hFirst, hSecond⟩ := ih
        exact ⟨_, hFirst.fail, hSecond.fail⟩

end Trace.Sifted

namespace Filtering

variable {env : Environment} {clocks : Set Clock} {s : Filtering} {chosen : Solution → Bool}

/-- On these clocks the condition comes to the same verdict about each row. -/
def Chooses (env : Environment) (clocks : Set Clock) (s : Filtering) (chosen : Solution → Bool) : Prop :=
  clocks.Nonempty ∧ ∀ row, ∀ clock ∈ clocks,
    ((s.condition.admits env.surroundings (s.view row)).run clock).1 = .ok (chosen row)

theorem Chooses.saysOn_onRow (h : s.Chooses env clocks chosen) {row : Solution} {t : Trace} {more : Bool}
    {s' : Filtering} :
    ((pipe env).onRow s row).SaysOn clocks t (more, s') ↔
      s' = s ∧ ((chosen row = true ∧ t = [.row row more]) ∨
        (chosen row = false ∧ more = true ∧ t = [])) := by
  obtain ⟨⟨clock, hClock⟩, hVerdict⟩ := h
  simp only [pipe, Pipe.ofRow, Emission.saysOn_bind, Emission.saysOn_asking]
  constructor
  · rintro ⟨t₁, outcome, t₂, ⟨rfl, clock, hClock, rfl⟩, hRest, rfl⟩
    rw [hVerdict row clock hClock] at hRest
    cases hChosen : chosen row with
    | true =>
        simp only [hChosen, bind_pure_comp, Emission.saysOn_map, Emission.saysOn_push,
          Prod.mk.injEq] at hRest
        obtain ⟨_, rfl, rfl, rfl⟩ := hRest
        exact ⟨rfl, .inl ⟨rfl, rfl⟩⟩
    | false =>
        rw [hChosen] at hRest
        obtain ⟨rfl, hEq⟩ := hRest
        obtain ⟨rfl, rfl⟩ := Prod.mk.inj hEq
        exact ⟨rfl, .inr ⟨rfl, rfl, rfl⟩⟩
  · rintro ⟨rfl, hCases⟩
    refine ⟨[], _, t, ⟨rfl, clock, hClock, rfl⟩, ?_, rfl⟩
    rw [hVerdict row clock hClock]
    obtain ⟨hChosen, rfl⟩ | ⟨hChosen, rfl, rfl⟩ := hCases
    · simp only [hChosen, bind_pure_comp, Emission.saysOn_map, Emission.saysOn_push]
      exact ⟨more, rfl, rfl⟩
    · rw [hChosen]
      exact ⟨rfl, rfl⟩

/-- What goes through a filter is sifted. -/
theorem Chooses.saysOn_through (h : s.Chooses env clocks chosen) {α : Type} {e : Emission α} {t : Trace}
    {v : α} {op : Operator} :
    ((Operator.pipe env 0).through (.filter s) e).SaysOn clocks t (v, op) ↔
      op = .filter s ∧ ∃ heard, e.SaysOn clocks heard v ∧ heard.Sifted chosen t := by
  induction e generalizing t with
  | done value =>
      constructor
      · rintro ⟨rfl, hEq⟩
        obtain ⟨rfl, rfl⟩ := Prod.mk.inj hEq
        exact ⟨rfl, [], ⟨rfl, rfl⟩, .nil⟩
      · rintro ⟨rfl, _, ⟨rfl, rfl⟩, hSifted⟩
        cases hSifted
        exact ⟨rfl, rfl⟩
  | emit row next ih =>
      have hSplit : ((Operator.pipe env 0).through (.filter s) (.emit row next)).SaysOn clocks t (v, op) ↔
          ∃ t₁ more t₂, ((pipe env).onRow s row).SaysOn clocks t₁ (more, s) ∧
            ((Operator.pipe env 0).through (.filter s) (next more)).SaysOn clocks t₂ (v, op) ∧
              t = t₁ ++ t₂ := by
        change (((pipe env).onRow s row >>= fun r => pure (r.1, Operator.filter r.2)) >>= fun r =>
          (Operator.pipe env 0).through r.2 (next r.1)).SaysOn clocks t (v, op) ↔ _
        simp only [bind_assoc, pure_bind, Emission.saysOn_bind, Prod.exists]
        constructor
        · rintro ⟨t₁, more, s', t₂, hFirst, hRest, rfl⟩
          obtain rfl := (h.saysOn_onRow.mp hFirst).1
          exact ⟨t₁, more, t₂, hFirst, hRest, rfl⟩
        · rintro ⟨t₁, more, t₂, hFirst, hRest, rfl⟩
          exact ⟨t₁, more, s, t₂, hFirst, hRest, rfl⟩
      simp only [hSplit, h.saysOn_onRow, true_and, ih]
      constructor
      · rintro ⟨t₁, more, t₂, ⟨hChosen, rfl⟩ | ⟨hChosen, rfl, rfl⟩, ⟨rfl, heard, hSays, hSifted⟩, rfl⟩
        · exact ⟨rfl, _, ⟨more, heard, rfl, hSays⟩, hSifted.keep hChosen⟩
        · exact ⟨rfl, _, ⟨true, heard, rfl, hSays⟩, hSifted.drop hChosen⟩
      · rintro ⟨rfl, _, ⟨more, heard, rfl, hSays⟩, hSifted⟩
        cases hSifted with
        | keep hChosen hRest => exact ⟨_, more, _, .inl ⟨hChosen, rfl⟩, ⟨rfl, heard, hSays, hRest⟩, rfl⟩
        | drop hChosen hRest => exact ⟨_, true, _, .inr ⟨hChosen, rfl, rfl⟩, ⟨rfl, heard, hSays, hRest⟩, rfl⟩
  | finish next ih =>
      have hSplit : ((Operator.pipe env 0).through (.filter s) (.finish next)).SaysOn clocks t (v, op) ↔
          ∃ u, t = .finish :: u ∧
            ((Operator.pipe env 0).through (.filter s) next).SaysOn clocks u (v, op) := Iff.rfl
      simp only [hSplit, ih]
      constructor
      · rintro ⟨u, rfl, rfl, heard, hSays, hSifted⟩
        exact ⟨rfl, _, ⟨heard, rfl, hSays⟩, hSifted.finish⟩
      · rintro ⟨rfl, _, ⟨heard, rfl, hSays⟩, hSifted⟩
        cases hSifted with
        | finish hRest => exact ⟨_, rfl, rfl, heard, hSays, hRest⟩
  | fail error next ih =>
      have hSplit : ((Operator.pipe env 0).through (.filter s) (.fail error next)).SaysOn clocks t (v, op) ↔
          ∃ u, t = .fail error :: u ∧
            ((Operator.pipe env 0).through (.filter s) next).SaysOn clocks u (v, op) := Iff.rfl
      simp only [hSplit, ih]
      constructor
      · rintro ⟨u, rfl, rfl, heard, hSays, hSifted⟩
        exact ⟨rfl, _, ⟨heard, rfl, hSays⟩, hSifted.fail⟩
      · rintro ⟨rfl, _, ⟨heard, rfl, hSays⟩, hSifted⟩
        cases hSifted with
        | fail hRest => exact ⟨_, rfl, rfl, heard, hSays, hRest⟩
  | probe next ih => exact ih false
  | consult next ih =>
      simp only [Pipe.through, Emission.SaysOn, ih]
      constructor
      · rintro ⟨clock, hClock, rfl, heard, hSays, hSifted⟩
        exact ⟨rfl, heard, ⟨clock, hClock, hSays⟩, hSifted⟩
      · rintro ⟨rfl, heard, ⟨clock, hClock, hSays⟩, hSifted⟩
        exact ⟨clock, hClock, rfl, heard, hSays, hSifted⟩
  | adjust clock next ih => exact ih

open Process in
/-- So is what is said of a process above which a filter stands. -/
theorem Chooses.saysOn_above (h : s.Chooses env clocks chosen) {e : Emission Process} {t : Trace}
    {p : Process} :
    ((do let (child, op) ← (Operator.pipe env 0).through (.filter s) e
         return node op [child]).SaysOn clocks t p) ↔
      ∃ heard child, e.SaysOn clocks heard child ∧ heard.Sifted chosen t ∧ p = .node (.filter s) [child] := by
  simp only [bind_pure_comp, Emission.saysOn_map, Prod.exists, h.saysOn_through]
  constructor
  · rintro ⟨child, _, ⟨rfl, heard, hSays, hSifted⟩, rfl⟩
    exact ⟨heard, child, hSays, hSifted, rfl⟩
  · rintro ⟨heard, child, hSays, hSifted, rfl⟩
    exact ⟨child, _, ⟨rfl, heard, hSays, hSifted⟩, rfl⟩

end Filtering

namespace Process

theorem live_node_single {op : Operator} {child : Process} {path : List Nat} :
    (node op [child]).Live path ↔ ∃ below, path = 0 :: below ∧ child.Live below := by
  cases path with
  | nil => simp [Live]
  | cons k below => cases k <;> simp [Live]

/-- The runs of a filter are those of its argument, sifted. -/
theorem runOn_underOne_filter {env : Environment} {clocks : Set Clock} {s : Filtering}
    {chosen : Solution → Bool} (h : s.Chooses env clocks chosen) {arg : Emission Process} {steps : Nat}
    {t : Trace} {p : Process} :
    RunOn clocks env (underOne env (.filter s) arg) steps t p ↔
      ∃ heard child, RunOn clocks env arg steps heard child ∧ heard.Sifted chosen t ∧
        p = .node (.filter s) [child] := by
  constructor
  · intro run
    induction run with
    | start first =>
        rw [underOne_of_not_opens rfl, h.saysOn_above] at first
        obtain ⟨heard, child, hSays, hSifted, rfl⟩ := first
        exact ⟨heard, child, .start hSays, hSifted, rfl⟩
    | step prior hLive last ih =>
        obtain ⟨heard, child, hRun, hSifted, rfl⟩ := ih
        obtain ⟨below, rfl, hChild⟩ := live_node_single.mp hLive
        rw [deliver_single rfl, h.saysOn_above] at last
        obtain ⟨heard', child', hSays, hSifted', rfl⟩ := last
        exact ⟨_, child', hRun.step hChild hSays, hSifted.append hSifted', rfl⟩
  · rintro ⟨heard, child, run, hSifted, rfl⟩
    induction run generalizing t with
    | start first =>
        refine .start ?_
        rw [underOne_of_not_opens rfl, h.saysOn_above]
        exact ⟨_, _, first, hSifted, rfl⟩
    | step prior hLive last ih =>
        obtain ⟨said, said', rfl, hFirst, hSecond⟩ := hSifted.exists_append
        refine (ih hFirst).step (live_node_single.mpr ⟨_, rfl, hLive⟩) ?_
        rw [deliver_single rfl, h.saysOn_above]
        exact ⟨_, _, last, hSecond, rfl⟩

end Process

end SolutionFlow
