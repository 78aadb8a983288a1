import Mathlib.Data.Multiset.Filter
import SolutionFlow.Proofs.Meaning.Seeded
import SolutionFlow.Proofs.Spill.Members

/-! Intersections and differences of positive plans. Both arguments are evaluated from the seed, so that the
rows that are compared have the bindings of the seed in them already. What comes out is sifted by these
rows, and not by those that the arguments mean. -/
namespace SolutionFlow

namespace SetOperator

/-- Whether a left row stays next to some right rows. -/
def Retains (op : SetOperator) (right : Bag) (row : Solution) : Prop :=
  match op with
  | .intersection => row ∈ right
  | .difference => ∀ excluded ∈ right, ¬(excluded.sharesName row && excluded.compatible row) = true

instance (op : SetOperator) (right : Bag) : DecidablePred (op.Retains right) := fun row =>
  match op with
  | .intersection => inferInstanceAs (Decidable (row ∈ right))
  | .difference => inferInstanceAs (Decidable (∀ excluded ∈ right,
      ¬(excluded.sharesName row && excluded.compatible row) = true))

/-- The left rows that stay. -/
def sieve (op : SetOperator) (left right : Bag) : Bag := left.filter (op.Retains right)

/-- From a seed that binds something no two rows are without a name in common, so that a right row
excludes all rows that it is compatible with. -/
theorem retains_difference_seeded {seed row m : Solution} (hSeed : seed.isEmpty = false)
    (hMerge : seed.merge? row = some m) (right : Bag) :
    difference.Retains (right.seeded seed) m ↔
      ∀ excluded ∈ right, ∀ m', seed.merge? excluded = some m' → m'.compatible m = false := by
  have hShares : ∀ {other m'}, seed.merge? other = some m' → m'.sharesName m = true := by
    intro other m' hOther
    obtain ⟨⟨name, value⟩, rest, hEntries⟩ := List.exists_cons_of_ne_nil
      (List.isEmpty_eq_false_iff.mp hSeed)
    have hBound : seed.get? name = some value :=
      Solution.get?_eq_some_iff.mpr (hEntries ▸ List.mem_cons_self)
    rw [Solution.sharesName_iff]
    refine ⟨name, ?_, ?_⟩
    · simp [Solution.binds, Solution.get?_of_merge?_left hOther hBound]
    · simp [Solution.binds, Solution.get?_of_merge?_left hMerge hBound]
  constructor
  · intro h excluded hMem m' hOther
    have hNot := h m' ((Bag.mem_seeded _ _).mpr ⟨excluded, hMem, hOther⟩)
    simpa [hShares hOther] using hNot
  · intro h m' hMem
    obtain ⟨excluded, hRight, hOther⟩ := (Bag.mem_seeded _ _).mp hMem
    simp [h excluded hRight m' hOther]

/-- A set that has collected the right rows tells whether a left row stays. -/
theorem keeps_eq (op : SetOperator) {members : MemberSet Solution} {items : List Solution}
    (h : members.Has items) (row : Solution) :
    op.keeps members row = .ok (decide (op.Retains items row)) := by
  cases op with
  | intersection =>
      simp [keeps, MemberSet.contains_eq h.isOpen, h.mem_iff, Retains]
  | difference =>
      simp only [keeps, MemberSet.any_eq h.isOpen, Except.map]
      refine congrArg Except.ok ?_
      rw [Bool.eq_iff_iff]
      simp [Retains, h.mem_iff]

/-- The plan of an operator. -/
def plan : SetOperator → Plan → Plan → Plan
  | .intersection => .intersection
  | .difference => .difference

variable {op : SetOperator} {env : Environment} {left right : Plan} {seed : Solution} {scope : Scope}
  {steps : Nat} {t : Trace} {p : Process}

/-- A run of an intersection or a difference collects the rows of its right argument, and then it runs
its left argument. -/
theorem split_plan (run : Run env ((op.plan left right).start env seed scope) steps t p) :
    Nonempty (Split env (.setFilter ⟨op, left, seed, scope.descend, .new env.spill⟩) []
      (right.start env seed scope.descend) (fun row => left.start env row scope.descend)
      steps t p) := by
  cases op with
  | intersection => exact Plan.split_setFilter run
  | difference => exact Plan.split_setFilter run

end SetOperator

namespace SetFilter

/-- How far an operator has come with rows of its right argument, and then of its left one, if neither
has failed: it collects, or it has sifted what its only branch has said. -/
inductive Sieves (s : SetFilter) : Trace → List Operator.Strand → Trace → MemberSet Solution → Prop where
  | collecting {lead : Trace} {members : MemberSet Solution} (hEnded : lead.ended = false)
      (hRefused : lead.refused = false) (hOptions : members.options = s.right.options)
      (hHas : members.Has lead.accepted) : s.Sieves lead [] [] members
  | sifting {lead branch said : Trace} {members : MemberSet Solution} (hEnded : lead.ended = true)
      (hRefused : lead.refused = false) (hHas : branch.ended = false → members.Has lead.accepted)
      (hAccepted : said.accepted = branch.accepted.filter (decide <| s.op.Retains lead.rows ·))
      (hSaid : said.ended = branch.ended) (hStopped : said.refused = branch.refused)
      (hFailed : said.failed = false) : s.Sieves lead [⟨s.seed, branch⟩] said members

end SetFilter

namespace SetFilter.Sieves

variable {s : SetFilter} {lead said : Trace} {strands : List Operator.Strand} {members : MemberSet Solution}

/-- There is one branch at most. -/
theorem length_le (h : s.Sieves lead strands said members) : strands.length ≤ 1 := by
  cases h with
  | collecting => exact Nat.zero_le 1
  | sifting => exact le_rfl

/-- A right row is taken, as long as a file can be made for it. So it is if it was accepted. -/
theorem collect {row : Solution} {more : Bool} (h : s.Sieves lead strands said members)
    (hTakes : s.right.options.canWrite = true ∨ more = true) (hOpen : lead.ended = false) {t : Trace}
    {s' : SetFilter} (hRow : (onRightRow { s with right := members } row).Says t (more, s')) :
    ∃ next, s' = { s with right := next } ∧
      s.Sieves (lead ++ [.row row more]) strands (said ++ t) next := by
  cases h with
  | sifting hEnded => simp [hEnded] at hOpen
  | collecting hEnded hRefused hOptions hHas =>
      obtain ⟨next, rfl, hCases⟩ := says_onRightRow hRow
      obtain ⟨hClosed, -⟩ | ⟨-, rfl, rfl, hNextOpen, isNew, hAdd⟩ | ⟨-, rfl, -, -⟩ := hCases
      · exact absurd hHas.isOpen (Bool.not_eq_false _ ▸ hClosed)
      · obtain ⟨-, -, hNext, hMembers⟩ := MemberSet.add_ok hAdd
        refine ⟨next, rfl, .collecting (by simp [hEnded]) (by simp [hRefused])
          (hNext.trans hOptions) ⟨hNextOpen, fun x => ?_⟩⟩
        simp [hMembers x, hHas.mem_iff]
      · obtain ⟨_, hAdd, -⟩ := hHas.exists_add (by simpa [hOptions] using hTakes) row
        simp only [onRightRow, hAdd] at hRow
        cases hRow.2

/-- With the end of the right rows the branch is opened. -/
theorem openBranch (h : s.Sieves lead strands said members) (hOpen : lead.ended = false) :
    s.Sieves (lead ++ [.finish]) (strands ++ [.new s.seed]) said members := by
  cases h with
  | sifting hEnded => simp [hEnded] at hOpen
  | collecting hEnded hRefused hOptions hHas =>
      exact .sifting (by simp) (by simp [hRefused]) (fun _ => by simpa using hHas) rfl rfl rfl rfl

/-- A left row is handed on if it stays, and the end is the end of the operator. -/
theorem sift {seed : Solution} {branch t : Trace} {e : Event} {s' : SetFilter}
    (h : s.Sieves lead [⟨seed, branch⟩] said members) (hOrderly : Trace.Orderly (branch ++ [e]))
    (hFailed : Trace.failed (branch ++ [e]) = false)
    (hRelays : leftPipe.Relays { s with right := members } e t s') :
    ∃ next, s' = { s with right := next } ∧
      s.Sieves lead [⟨seed, branch ++ [e]⟩] (said ++ t) next := by
  cases h with
  | sifting hEnded hRefused hHas hAccepted hSaid hStopped hUnfailed =>
      rw [relays_leftPipe] at hRelays
      cases e with
      | fail error => simp at hFailed
      | finish =>
          obtain ⟨rfl, rfl⟩ := hRelays
          exact ⟨_, rfl, .sifting hEnded hRefused (by simp) (by simp [hAccepted]) (by simp)
            (by simp [hStopped]) (by simp [hUnfailed])⟩
      | row row more =>
          have hMembers := hHas (hOrderly.still_open rfl).1
          obtain ⟨rfl, hCases⟩ := says_onLeftRow hRelays
          rw [SetOperator.keeps_eq _ hMembers, Except.ok.injEq, Except.ok.injEq] at hCases
          obtain ⟨hClosed, -⟩ | ⟨hStays, rfl⟩ | ⟨hGoes, rfl, rfl⟩ := hCases
          · exact absurd hMembers.isOpen (Bool.not_eq_false _ ▸ hClosed)
          · have hStays : s.op.Retains lead.rows row := of_decide_eq_true hStays
            refine ⟨members, rfl, .sifting hEnded hRefused (fun _ => hMembers) ?_ (by simp [hSaid])
              (by simp [hStopped]) (by simp [hUnfailed])⟩
            cases more <;> simp [hAccepted, hStays]
          · have hGoes : ¬s.op.Retains lead.rows row := of_decide_eq_false hGoes
            exact ⟨members, rfl, .sifting hEnded hRefused (fun _ => hMembers)
              (by simp [hAccepted, hGoes]) (by simp [hSaid]) (by simp [hStopped])
              (by simp [hUnfailed])⟩

end SetFilter.Sieves

namespace Operator.Weaves

variable {env : Environment} {op : Operator} {strands : List Strand} {lead said : Trace}

/-- As long as no argument fails, an intersection or a difference collects all right rows, and then it
sifts the left rows by them. If no file can be made, it does so as long as it refuses no right row. -/
theorem sieves {s₀ : SetFilter} (hFirst : s₀.right.Has [])
    (hTakes : s₀.right.options.canWrite = true ∨ lead.refused = false)
    (weave : Weaves env (.setFilter s₀) [] op lead strands said) (hLead : lead.Orderly)
    (hLeadFailed : lead.failed = false) (hStrands : ∀ strand ∈ strands, strand.trace.Orderly)
    (hFailed : ∀ strand ∈ strands, strand.trace.failed = false) :
    ∃ members, op = .setFilter { s₀ with right := members } ∧ s₀.Sieves lead strands said members := by
  induction weave with
  | nil => exact ⟨s₀.right, rfl, .collecting rfl rfl rfl hFirst⟩
  | lead prior last ih =>
      rename_i op op' lead said t strands e seeds
      rw [Trace.failed_append, Bool.or_eq_false_iff] at hLeadFailed
      rw [Trace.refused_append, Bool.or_eq_false_iff] at hTakes
      obtain ⟨members, rfl, hSieves⟩ := ih (hTakes.imp_right And.left) hLead.of_append hLeadFailed.1
        (fun strand hMem => hStrands strand (List.mem_append_left _ hMem))
        fun strand hMem => hFailed strand (List.mem_append_left _ hMem)
      cases e with
      | fail error => simp at hLeadFailed
      | row row more =>
          obtain ⟨s', hRow, rfl, rfl⟩ := relays_lead_setFilter_row.mp last
          have hAccepts := hTakes.imp_right fun hBoth => by simpa using hBoth.2
          obtain ⟨next, rfl, hNext⟩ := hSieves.collect hAccepts (hLead.still_open rfl).1 hRow
          exact ⟨next, rfl, by simpa using hNext⟩
      | finish =>
          obtain ⟨rfl, rfl, rfl⟩ := says_openBranch_done.mp (relays_lead_setFilter_finish.mp last)
          exact ⟨members, rfl, by simpa using hSieves.openBranch (hLead.still_open rfl).1⟩
  | branch prior hGet last ih =>
      rename_i op op' lead said t strands e k strand
      obtain ⟨hOrderly, hBefore⟩ := Strand.orderly_of_set hGet hStrands
      obtain ⟨before, after, rfl, hSet⟩ := exists_around hGet
      simp only [hSet, List.forall_mem_append, List.forall_mem_cons] at hFailed
      have hEarlier : strand.trace.failed = false := by
        have hLater := hFailed.2.1
        simp only [Strand.say, Trace.failed_append, Bool.or_eq_false_iff] at hLater
        exact hLater.1
      obtain ⟨members, rfl, hSieves⟩ := ih hTakes hLead hLeadFailed hBefore (by
        simp only [List.forall_mem_append, List.forall_mem_cons]
        exact ⟨hFailed.1, hEarlier, hFailed.2.2⟩)
      obtain ⟨s', rfl, hBranch⟩ := (Pipe.relays_react rfl).mp last
      obtain ⟨rfl, rfl⟩ : before = [] ∧ after = [] := by
        have hLength := hSieves.length_le
        simp only [List.length_append, List.length_cons] at hLength
        exact ⟨List.length_eq_zero_iff.mp (by omega), List.length_eq_zero_iff.mp (by omega)⟩
      rw [hSet]
      obtain ⟨next, rfl, hNext⟩ := hSieves.sift hOrderly hFailed.2.1 hBranch
      exact ⟨next, rfl, hNext⟩

end Operator.Weaves

namespace Job

variable {env : Environment} {job job' : Job} {t : Trace} {call : Environment → Timed Call}

/-- A job that makes a call for given rows has no reason to fail. -/
def Calm (call : Environment → Timed Call) (job : Job) : Prop :=
  job.state = .waiting call ∨ (∃ rest, job.state = .called (.opened (.ofRows rest))) ∨
    job.isEnded = true

theorem Calm.step (hCall : ∀ clock, ∃ rows, (call env clock).1 = .ofRows rows) (h : job.Calm call)
    (hLive : job.isEnded = false) (hSays : (job.step env).Says t job') :
    job'.Calm call ∧ t.failed = false := by
  obtain hState | ⟨rest, hState⟩ | hEnded := h
  · obtain ⟨rfl, clock, hNow⟩ := says_step_waiting hState hSays
    obtain ⟨rows, hRows⟩ := hCall clock
    exact ⟨.inr (.inl ⟨rows, by rw [hNow, hRows]; rfl⟩), rfl⟩
  · obtain ⟨-, rfl, hEnded⟩ | ⟨row, hTake, ⟨rfl, hNow⟩ | ⟨rfl, hEnded⟩⟩ | ⟨error, hTake, -⟩ :=
      says_step_opened hState hSays
    · exact ⟨.inr (.inr hEnded), rfl⟩
    · cases rest with
      | nil => simp [Iteration.ofRows, Iteration.take] at hTake
      | cons next rest => exact ⟨.inr (.inl ⟨rest, hNow⟩), rfl⟩
    · exact ⟨.inr (.inr hEnded), rfl⟩
    · cases rest <;> simp [Iteration.ofRows, Iteration.take] at hTake
  · simp [hLive] at hEnded

end Job

namespace Plan

variable {env : Environment} {plan : Plan} {seed : Solution} {scope : Scope} {steps : Nat} {t : Trace}
  {p : Process}

/-- A leaf that hands over given rows never fails. -/
theorem unfailed_of_calling {kind : String} {call : Environment → Timed Call}
    (hCall : ∀ clock, ∃ rows, (call env clock).1 = .ofRows rows)
    (run : Run env (Process.calling kind call) steps t p) : t.failed = false := by
  obtain ⟨job, -, -, hFailed⟩ := Process.job_of_run
    (fun _ t job => job.Calm call ∧ t.failed = false) (fun _ => ⟨.inl rfl, rfl⟩)
    (fun hBefore hLive hSays => by
      obtain ⟨hNext, hNow⟩ := hBefore.1.step hCall hLive hSays
      exact ⟨hNext, by simp [hBefore.2, hNow]⟩) run
  exact hFailed

/-- A positive plan never fails, whether its rows are wanted or not. -/
theorem Positive.unfailed (h : plan.Positive) (run : Run env (plan.start env seed scope) steps t p) :
    t.failed = false := by
  induction h generalizing seed scope steps t p with
  | pattern hGraph => exact unfailed_of_calling (fun _ => ⟨_, rfl⟩) run
  | inline hRows => exact unfailed_of_calling (fun _ => ⟨_, rfl⟩) run
  | singleton =>
      obtain ⟨-, hSays⟩ := run.of_idle fun hSays => (Process.says_single hSays).1
      obtain ⟨-, rfl | rfl⟩ := Process.says_single hSays
      all_goals rfl
  | empty =>
      obtain ⟨-, hSays⟩ := run.of_idle fun hSays => (Process.says_nothing hSays).1
      obtain ⟨-, rfl⟩ := Process.says_nothing hSays
      rfl
  | join hLeft hRight ihLeft ihRight =>
      obtain ⟨split⟩ := split_join run
      exact split.unfailed rfl rfl (by simp) (ihLeft split.lead_runs)
        fun thread hMem => ihRight (split.threads_run thread hMem)
  | union hLeft hRight ihLeft ihRight =>
      obtain ⟨split⟩ := split_union run
      exact split.unfailed rfl rfl (by simp [Operator.Strand.new]) (ihLeft split.lead_runs)
        fun thread hMem => ihRight (split.threads_run thread hMem)

end Plan

namespace SetOperator

variable {op : SetOperator} {d : Dataset} {left right : Plan} {seed : Solution}

/-- An intersection or a difference of positive plans is on its way to the left rows that stay next to
the right rows, both evaluated from the seed. -/
theorem toward_sieve (op : SetOperator) (hLeft : left.Positive) (hRight : right.Positive)
    (seed : Solution) :
    ∃ bound, ∀ {env : Environment} {scope : Scope} {steps : Nat} {t : Trace} {p : Process},
      env.dataset = d → env.spill.canWrite = true →
        Run env ((op.plan left right).start env seed scope) steps t p → t.refused = false →
          t.Toward (op.sieve ((left.meaning d).seeded seed) ((right.meaning d).seeded seed))
            bound steps := by
  obtain ⟨boundLeft, hBoundLeft⟩ := hLeft.yields (d := d) seed
  obtain ⟨boundRight, hBoundRight⟩ := hRight.yields (d := d) seed
  refine ⟨boundRight + boundLeft, fun {env scope steps t p} hStore hWrite run hRefused => ?_⟩
  obtain ⟨split⟩ := split_plan run
  have hThreads : ∀ strand ∈ split.threads.map (·.strand), strand.trace.Orderly :=
    List.forall_mem_map.mpr fun thread hMem => (left.keeps (split.threads_run thread hMem)).orderly
  have hCalm : ∀ strand ∈ split.threads.map (·.strand), strand.trace.failed = false :=
    List.forall_mem_map.mpr fun thread hMem => hLeft.unfailed (split.threads_run thread hMem)
  obtain ⟨members, -, hSieves⟩ := split.weaves.sieves (MemberSet.has_new env.spill) (.inl hWrite)
    (right.keeps split.lead_runs).orderly (hRight.unfailed split.lead_runs) hThreads hCalm
  have hTotal := split.steps_eq
  generalize hStrands : split.threads.map (·.strand) = strands at hSieves
  cases hSieves with
  | collecting hEnded hLeadRefused =>
      have hLead := hBoundRight hStore split.lead_runs hLeadRefused
      rw [List.map_eq_nil_iff.mp hStrands] at hTotal
      refine ⟨?_, rfl, Multiset.zero_le _, by simp⟩
      exact hTotal.trans_le (Nat.add_le_add hLead.bounded (Nat.zero_le _))
  | sifting hEnded hLeadRefused hHas hAccepted hSaid hStopped hFailed =>
      rename_i branch
      obtain ⟨thread, hThread, hStrand⟩ := List.map_eq_singleton_iff.mp hStrands
      have hRuns := split.threads_run thread (by simp [hThread])
      rw [Thread.Runs, hStrand] at hRuns
      have hLead := hBoundRight hStore split.lead_runs hLeadRefused
      have hBranch := hBoundLeft hStore hRuns (hStopped.symm.trans hRefused)
      have hSifted : t.rows = branch.rows.filter
          (op.Retains ((right.meaning d).seeded seed)) := by
        rw [Trace.rows, hAccepted, hLead.complete hEnded, Trace.rows, Multiset.filter_coe]
      refine ⟨?_, hFailed, ?_, fun hDone => ?_⟩
      · rw [hThread, List.map_singleton, List.sum_singleton] at hTotal
        exact hTotal.trans_le (Nat.add_le_add hLead.bounded hBranch.bounded)
      · rw [hSifted]
        exact Multiset.filter_le_filter _ hBranch.rows_le
      · rw [hSifted, hBranch.complete (hSaid.symm.trans hDone), sieve]

/-- Intersections and differences of positive plans compare rows that have the bindings of the seed in
them. From whatever seed, they give the left rows that stay next to the right rows, both merged with
the seed. This is what the rows of the arguments by themselves lead to, exactly if for each left row
it makes no difference whether the seed is looked at too. -/
theorem positive_gives_sieve (op : SetOperator) (hLeft : left.Positive) (hRight : right.Positive)
    (seed : Solution) :
    (∃ bound, ∀ {env : Environment} {scope : Scope} {steps : Nat} {t : Trace} {p : Process},
      env.dataset = d → env.spill.canWrite = true →
        Run env ((op.plan left right).start env seed scope) steps t p → t.refused = false →
          steps ≤ bound) ∧
    (∀ {env : Environment} (scope : Scope), env.dataset = d → env.spill.canWrite = true →
      ∃ steps t p, Run env ((op.plan left right).start env seed scope) steps t p ∧
        t.refused = false ∧ p.Finished) ∧
    (∀ {env : Environment} {scope : Scope} {steps : Nat} {t : Trace} {p : Process},
      env.dataset = d → env.spill.canWrite = true →
        Run env ((op.plan left right).start env seed scope) steps t p → t.refused = false →
          p.Finished → t = t.accepted.map (.row · true) ++ [.finish] ∧
            t.rows = op.sieve ((left.meaning d).seeded seed) ((right.meaning d).seeded seed)) ∧
    (op.sieve ((left.meaning d).seeded seed) ((right.meaning d).seeded seed) =
        (op.sieve (left.meaning d) (right.meaning d)).seeded seed ↔
      ∀ row ∈ left.meaning d, ∀ m, seed.merge? row = some m →
        (op.Retains ((right.meaning d).seeded seed) m ↔ op.Retains (right.meaning d) row)) := by
  obtain ⟨bound, hBound⟩ := toward_sieve (d := d) op hLeft hRight seed
  refine ⟨⟨bound, fun hStore hWrite run hRefused => (hBound hStore hWrite run hRefused).bounded⟩,
    fun scope hStore hWrite => ?_, fun hStore hWrite run hRefused hFinished => ?_,
    Bag.filter_seeded_eq_iff⟩
  · exact Plan.exists_finished fun run hRefused => (hBound hStore hWrite run hRefused).bounded
  · obtain ⟨hCompletes, hRows⟩ :=
      (hBound hStore hWrite run hRefused).finished run hRefused hFinished
    exact ⟨hCompletes.eq ((op.plan left right).keeps run).orderly, hRows⟩

/-- Two tables of different names next to a seed that binds a third one. -/
theorem positive_gives_sieve_tables :
    let left : Plan := .inline ["x"] [.ofList [("x", .integer 1)]]
    let right : Plan := .inline ["x"] [.ofList [("x", .integer 2)]]
    let seed : Solution := .ofList [("z", .integer 1)]
    let m : Solution := .ofList [("x", .integer 1), ("z", .integer 1)]
    left.Positive ∧ right.Positive ∧ ∃ steps t p,
      Run (.ofDataset .empty) ((difference.plan left right).start (.ofDataset .empty) seed .root)
        steps t p ∧ t.refused = false ∧ p.Finished ∧ t.rows = {m} := by
  intro left right seed m
  have hLeft : left.Positive := .inline (by decide)
  have hRight : right.Positive := .inline (by decide)
  have hStore : (Environment.ofDataset .empty).dataset = .empty := rfl
  obtain ⟨-, hFinishes, hResult, -⟩ := positive_gives_sieve difference hLeft hRight seed
  obtain ⟨steps, t, p, run, hRefused, hFinished⟩ := hFinishes .root hStore rfl
  refine ⟨hLeft, hRight, steps, t, p, run, hRefused, hFinished, ?_⟩
  rw [(hResult hStore rfl run hRefused hFinished).2]
  decide

/-- Next to a right row that has no name in common with it, a left row is lost from a seed that binds
something. -/
theorem difference_excludes_by_seed :
    let left : Plan := .inline ["x"] [.ofList [("x", .integer 1)]]
    let right : Plan := .inline ["y"] [.ofList [("y", .integer 2)]]
    let seed : Solution := .ofList [("z", .integer 1)]
    let m : Solution := .ofList [("x", .integer 1), ("z", .integer 1)]
    (difference.sieve (left.meaning .empty) (right.meaning .empty)).seeded seed = {m} ∧
      ∃ steps t p,
        Run (.ofDataset .empty) ((Plan.difference left right).start (.ofDataset .empty) seed .root)
          steps t p ∧ t.refused = false ∧ p.Finished ∧ t.rows = 0 := by
  intro left right seed m
  have hLeft : left.Positive := .inline (by decide)
  have hRight : right.Positive := .inline (by decide)
  have hStore : (Environment.ofDataset .empty).dataset = .empty := rfl
  obtain ⟨bound, hBound⟩ := toward_sieve difference hLeft hRight seed
  obtain ⟨steps, t, p, run, hRefused, hFinished⟩ := Plan.exists_finished
    fun run hRefused => (hBound hStore rfl run hRefused).bounded
  refine ⟨by decide, steps, t, p, run, hRefused, hFinished, ?_⟩
  rw [((hBound hStore rfl run hRefused).finished run hRefused hFinished).2]
  decide

end SetOperator

end SolutionFlow
