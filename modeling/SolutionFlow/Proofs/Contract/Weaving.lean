import SolutionFlow.Proofs.Contract.Merging
import SolutionFlow.Proofs.Flow.Weave

/-! Joins, left joins and unions are merges of their arguments, in every weave of them. -/
namespace SolutionFlow

namespace Operator

variable {env : Environment}

/-- The completion of an operator that merges streams, and whether it can fail by itself, as the
condition of a left join may. -/
def merging? : Operator → Option (Completion × Bool)
  | .join s => some (s.completion, false)
  | .leftJoin s => some (s.completion, s.condition.isSome)
  | .union c => some (c, false)
  | _ => none

/-- A branch of a left join may also be filtered, and it may be given the left row at its end. Failures of
its own come from its condition only. -/
theorem hears_of_leftJoin_relays {k : Nat} {s s' : LeftJoining} {e : Event} {t : Trace} {own : Bool}
    (hOwn : own = false → ∀ row error, ¬s.Judges env row (.error error))
    (h : (LeftJoining.branchPipe env k).Relays s e t s') :
    s'.condition = s.condition ∧ s'.visible = s.visible ∧
      s.completion.Hears own e t s'.completion := by
  cases e with
  | row row more =>
      obtain ⟨hStopped, rfl, rfl, rfl⟩ | ⟨hGoing, -, rfl, rfl⟩ | ⟨-, -, rfl, rfl, rfl⟩ |
        ⟨-, error, hJudged, rfl, rfl, rfl⟩ := LeftJoining.says_onBranchRow h
      · exact ⟨rfl, rfl, .inl ⟨rfl, rfl, .inr hStopped⟩⟩
      · exact ⟨rfl, rfl, .inr (.inl ⟨row, Completion.says_forward.mpr (.inr ⟨hGoing, rfl, rfl⟩)⟩)⟩
      · exact ⟨rfl, rfl, .inl ⟨rfl, rfl, .inl rfl⟩⟩
      · cases own with
        | true => exact ⟨rfl, rfl, .inr (.inr ⟨rfl, rfl, ⟨error, rfl⟩, rfl⟩)⟩
        | false => exact absurd hJudged (hOwn rfl row error)
  | finish =>
      obtain ⟨left, t₁, more, c₁, t₂, c₂, -, hForward, hFinish, rfl, rfl⟩ | ⟨-, c, hFinish, rfl⟩ :=
        LeftJoining.says_onBranchFinish h
      · exact ⟨rfl, rfl, .inr ⟨left, t₁, more, c₁, t₂, hForward, hFinish, rfl⟩⟩
      · exact ⟨rfl, rfl, .inl hFinish⟩
  | fail error =>
      obtain ⟨rfl, rfl⟩ := LeftJoining.relays_fail.mp h
      exact ⟨rfl, rfl, rfl, rfl⟩

/-- A left join hears its left argument, or opens a branch on a row of it without a word. -/
theorem leftJoin_hears_or_begins {s : LeftJoining} {op' : Operator} {e : Event} {t : Trace}
    {seeds : List Solution} {own : Bool}
    (hOwn : own = false → ∀ row error, ¬s.Judges env row (.error error))
    (h : (Operator.leftJoin s).Hears env e t op' seeds) :
    ∃ s', op' = .leftJoin s' ∧ s'.condition = s.condition ∧ s'.visible = s.visible ∧
      ((seeds = [] ∧ s.completion.Hears own e t s'.completion) ∨
        ∃ row, e = .row row true ∧ t = [] ∧ seeds = [row] ∧ s'.completion = s.completion.begin) := by
  cases e with
  | row row more =>
      obtain ⟨hStopped, rfl, rfl, rfl, rfl⟩ | ⟨-, rfl, hOpened⟩ := relays_lead_leftJoin_row.mp h
      · exact ⟨s, rfl, rfl, rfl, .inl ⟨rfl, .inl ⟨rfl, rfl, .inr hStopped⟩⟩⟩
      · obtain ⟨rfl, rfl, rfl⟩ := says_openBranch_done.mp hOpened
        exact ⟨_, rfl, rfl, rfl, .inr ⟨row, rfl, rfl, rfl, rfl⟩⟩
  | finish =>
      obtain ⟨c', hFinish, rfl, rfl⟩ := relays_lead_leftJoin_finish.mp h
      exact ⟨_, rfl, rfl, rfl, .inl ⟨rfl, .inl hFinish⟩⟩
  | fail error =>
      obtain ⟨hFail, rfl⟩ := relays_lead_fail.mp h
      obtain ⟨s', rfl, hBranch⟩ := (Pipe.relays_react rfl).mp hFail
      obtain ⟨hCondition, hVisible, hHears⟩ := hears_of_leftJoin_relays hOwn hBranch
      exact ⟨s', rfl, hCondition, hVisible, .inl ⟨rfl, hHears⟩⟩

/-- Without a condition there are none. -/
theorem not_judges_of_isSome {s : LeftJoining} (hNone : s.condition.isSome = false) (row : Solution)
    (error : QueryError) : ¬s.Judges env row (.error error) := fun hJudged => by
  rw [LeftJoining.isSome_of_error hJudged] at hNone
  exact Bool.false_ne_true hNone.symm

/-- A completion by itself hears its streams. -/
theorem hears_of_completion_relays {c c' : Completion} {e : Event} {t : Trace}
    (h : Completion.pipe.Relays c e t c') : c.Hears false e t c' := by
  cases e with
  | row row more => exact .inr (.inl ⟨row, h⟩)
  | finish => exact .inl h
  | fail error => exact Completion.relays_pipe.mp h

/-- An operator that merges streams hears each of its branches. -/
theorem hears_of_relays_branch {op op' : Operator} {k : Nat} {e : Event} {t : Trace} {c : Completion}
    {own : Bool} (hMerge : op.merging? = some (c, own)) (h : (pipe env k).Relays op e t op') :
    ∃ c', op'.merging? = some (c', own) ∧ c.Hears own e t c' := by
  cases op with
  | join s =>
      obtain ⟨rfl, rfl⟩ := Prod.mk.inj (Option.some.inj hMerge)
      obtain ⟨s', rfl, hBranch⟩ := (Pipe.relays_react rfl).mp h
      obtain ⟨c', rfl, hRelays⟩ := Joining.relays_branchPipe.mp hBranch
      exact ⟨c', rfl, hears_of_completion_relays hRelays⟩
  | leftJoin s =>
      obtain ⟨rfl, rfl⟩ := Prod.mk.inj (Option.some.inj hMerge)
      obtain ⟨s', rfl, hBranch⟩ := (Pipe.relays_react rfl).mp h
      obtain ⟨hCondition, -, hHears⟩ := hears_of_leftJoin_relays not_judges_of_isSome hBranch
      exact ⟨s'.completion, by rw [merging?, hCondition], hHears⟩
  | union c =>
      obtain ⟨rfl, rfl⟩ := Prod.mk.inj (Option.some.inj hMerge)
      obtain ⟨c', rfl, hRelays⟩ := (Pipe.relays_react rfl).mp h
      exact ⟨c', rfl, hears_of_completion_relays hRelays⟩
  | _ => simp [merging?] at hMerge

/-- It hears its first argument, or opens a branch on a row of it without a word. -/
theorem hears_or_begins {op op' : Operator} {e : Event} {t : Trace} {seeds : List Solution}
    {c : Completion} {own : Bool} (hMerge : op.merging? = some (c, own))
    (h : op.Hears env e t op' seeds) :
    ∃ c', op'.merging? = some (c', own) ∧ ((seeds = [] ∧ c.Hears own e t c') ∨
      ∃ row, e = .row row true ∧ t = [] ∧ seeds = [row] ∧ c' = c.begin) := by
  have hBranch : (pipe env 0).Relays op e t op' ∧ seeds = [] →
      ∃ c', op'.merging? = some (c', own) ∧ ((seeds = [] ∧ c.Hears own e t c') ∨
        ∃ row, e = .row row true ∧ t = [] ∧ seeds = [row] ∧ c' = c.begin) := by
    rintro ⟨hRelays, rfl⟩
    obtain ⟨c', hSome, hHears⟩ := hears_of_relays_branch hMerge hRelays
    exact ⟨c', hSome, .inl ⟨rfl, hHears⟩⟩
  have hRefused : ∀ row, c.stopped = true → c.Hears own (.row row false) [] c :=
    fun row hStopped => .inl ⟨rfl, rfl, .inr hStopped⟩
  cases op with
  | join s =>
      obtain ⟨rfl, rfl⟩ := Prod.mk.inj (Option.some.inj hMerge)
      cases e with
      | row row more =>
          obtain ⟨hStopped, rfl, rfl, rfl, rfl⟩ | ⟨-, rfl, hOpened⟩ := relays_lead_join_row.mp h
          · exact ⟨_, rfl, .inl ⟨rfl, hRefused row hStopped⟩⟩
          · obtain ⟨rfl, rfl, rfl⟩ := says_openBranch_done.mp hOpened
            exact ⟨_, rfl, .inr ⟨row, rfl, rfl, rfl, rfl⟩⟩
      | finish => exact hBranch ((relays_lead_finish (by simp) (by simp)).mp h)
      | fail error => exact hBranch (relays_lead_fail.mp h)
  | leftJoin s =>
      obtain ⟨rfl, rfl⟩ := Prod.mk.inj (Option.some.inj hMerge)
      obtain ⟨s', rfl, hCondition, -, hAll⟩ := leftJoin_hears_or_begins not_judges_of_isSome h
      exact ⟨s'.completion, by rw [merging?, hCondition], hAll⟩
  | union c => exact hBranch ((hears_iff rfl).mp h)
  | _ => simp [merging?] at hMerge

namespace Weaves

variable {start op : Operator} {opened strands : List Strand} {lead said : Trace}
  {c₀ : Completion} {own : Bool}

/-- A weave of an operator that merges streams is a merge of all of its arguments. -/
theorem merges (hStart : start.merging? = some (c₀, own))
    (hFirst : c₀.Merges ([] :: opened.map (·.trace)) [])
    (weave : Weaves env start opened op lead strands said) (hLead : lead.Orderly)
    (hStrands : ∀ strand ∈ strands, strand.trace.Orderly) :
    ∃ c, op.merging? = some (c, own) ∧ c.Merges (lead :: strands.map (·.trace)) said := by
  induction weave with
  | nil => exact ⟨c₀, hStart, hFirst⟩
  | lead prior last ih =>
      rename_i op op' lead said t strands e seeds
      obtain ⟨c, hSome, hMerges⟩ := ih hLead.of_append
        fun strand hMem => hStrands strand (List.mem_append_left _ hMem)
      obtain ⟨c', hSome', ⟨rfl, hHears⟩ | ⟨row, rfl, rfl, rfl, rfl⟩⟩ := hears_or_begins hSome last
      · refine ⟨c', hSome', ?_⟩
        simpa using hMerges.hear_first hLead hHears
      · refine ⟨_, hSome', ?_⟩
        have hNoted : c.Hears own (.row row true) [] c := .inl ⟨rfl, rfl, .inl rfl⟩
        have next := hMerges.hear_first hLead hNoted
        have hOpen : lead.ended = false := (hLead.still_open rfl).1
        have hStill := next.ended_eq_false (s := lead ++ [.row row true]) (by simp) (by simp [hOpen])
        simpa [Strand.new] using next.begin hStill.1
  | branch prior hGet last ih =>
      obtain ⟨hOrderly, hBefore⟩ := Strand.orderly_of_set hGet hStrands
      obtain ⟨c, hSome, hMerges⟩ := ih hLead hBefore
      obtain ⟨before, after, rfl, hSet⟩ := exists_around hGet
      obtain ⟨c', hSome', hHears⟩ := hears_of_relays_branch hSome last
      refine ⟨c', hSome', ?_⟩
      simp only [hSet, List.map_append, List.map_cons, ← List.cons_append] at hMerges ⊢
      exact hMerges.hear hOrderly hHears

/-- An operator that never has failures of its own fails and refuses only as it must. -/
theorem follows_of (Calm : Operator → Completion → Prop)
    (hLead : ∀ {op op' e t seeds c}, Calm op c → op.Hears env e t op' seeds →
      ∃ c', Calm op' c' ∧ ((seeds = [] ∧ c.Hears false e t c') ∨
        ∃ row, e = .row row true ∧ t = [] ∧ seeds = [row] ∧ c' = c.begin))
    (hBranch : ∀ {op op' k e t c}, Calm op c → (pipe env k).Relays op e t op' →
      ∃ c', Calm op' c' ∧ c.Hears false e t c')
    (hStart : Calm start c₀) (hOpen : c₀.stopped = false)
    (hFirst : ∀ strand ∈ opened, strand.trace = [])
    (weave : Weaves env start opened op lead strands said) :
    ∃ c, Calm op c ∧ c.Follows (lead :: strands.map (·.trace)) said := by
  induction weave with
  | nil =>
      refine ⟨c₀, hStart, hOpen, ?_, by simp⟩
      simp only [List.forall_mem_cons, List.forall_mem_map]
      exact ⟨by simp, fun strand hMem => by simp [hFirst strand hMem]⟩
  | lead prior last ih =>
      rename_i op op' lead said t strands e seeds
      obtain ⟨c, hCalm, hFollows⟩ := ih
      obtain ⟨c', hCalm', ⟨rfl, hHears⟩ | ⟨row, rfl, rfl, rfl, rfl⟩⟩ := hLead hCalm last
      · refine ⟨c', hCalm', ?_⟩
        simpa using hFollows.hear_first hHears
      · refine ⟨_, hCalm', ?_⟩
        have hNoted : c.Hears false (.row row true) [] c := .inl ⟨rfl, rfl, .inl rfl⟩
        have next := hFollows.hear_first hNoted
        simpa [Strand.new] using next.begin
  | branch prior hGet last ih =>
      obtain ⟨c, hCalm, hFollows⟩ := ih
      obtain ⟨before, after, rfl, hSet⟩ := exists_around hGet
      obtain ⟨c', hCalm', hHears⟩ := hBranch hCalm last
      refine ⟨c', hCalm', ?_⟩
      simp only [hSet, List.map_append, List.map_cons, ← List.cons_append] at hFollows ⊢
      exact hFollows.hear hHears

theorem follows (hStart : start.merging? = some (c₀, false)) (hOpen : c₀.stopped = false)
    (hFirst : ∀ strand ∈ opened, strand.trace = [])
    (weave : Weaves env start opened op lead strands said) :
    ∃ c, op.merging? = some (c, false) ∧ c.Follows (lead :: strands.map (·.trace)) said :=
  weave.follows_of (fun op c => op.merging? = some (c, false)) hears_or_begins hears_of_relays_branch
    hStart hOpen hFirst

/-- So does a left join whose condition never fails. -/
theorem leftJoin_follows {s₀ : LeftJoining} (hNever : ∀ row error, ¬s₀.Judges env row (.error error))
    (hOpen : s₀.completion.stopped = false) (hFirst : ∀ strand ∈ opened, strand.trace = [])
    (weave : Weaves env (.leftJoin s₀) opened op lead strands said) :
    ∃ c : Completion, c.Follows (lead :: strands.map (·.trace)) said := by
  let Calm (op : Operator) (c : Completion) : Prop := ∃ s, op = .leftJoin s ∧ s.completion = c ∧
    ∀ row error, ¬s.Judges env row (.error error)
  have hStill : ∀ {s s' : LeftJoining}, s'.condition = s.condition → s'.visible = s.visible →
      (∀ row error, ¬s.Judges env row (.error error)) →
        ∀ row error, ¬s'.Judges env row (.error error) := by
    intro s s' hCondition hVisible hCalm row error
    have hSame : s'.admits env.surroundings row = s.admits env.surroundings row := by
      rw [LeftJoining.admits, LeftJoining.admits, hCondition, hVisible]
    rw [LeftJoining.Judges, hSame]
    exact hCalm row error
  obtain ⟨c, -, hFollows⟩ := weave.follows_of Calm
    (by
      rintro op op' e t seeds c ⟨s, rfl, rfl, hCalm⟩ hHears
      obtain ⟨s', rfl, hCondition, hVisible, hAll⟩ :=
        leftJoin_hears_or_begins (fun _ => hCalm) hHears
      exact ⟨s'.completion, ⟨s', rfl, rfl, hStill hCondition hVisible hCalm⟩, hAll⟩)
    (by
      rintro op op' k e t c ⟨s, rfl, rfl, hCalm⟩ hRelays
      obtain ⟨s', rfl, hBranch⟩ := (Pipe.relays_react rfl).mp hRelays
      obtain ⟨hCondition, hVisible, hHears⟩ := hears_of_leftJoin_relays (fun _ => hCalm) hBranch
      exact ⟨s'.completion, ⟨s', rfl, rfl, hStill hCondition hVisible hCalm⟩, hHears⟩)
    ⟨s₀, rfl, rfl, hNever⟩ hOpen hFirst
  exact ⟨c, hFollows⟩

end Weaves

end Operator

end SolutionFlow
