import Mathlib.Algebra.BigOperators.Group.List.Basic
import Mathlib.Data.Multiset.Bind
import Mathlib.Tactic.Abel
import SolutionFlow.Proofs.Contract.EndOfStream

/-! Completeness of joins and unions. All rows of all branches are handed on, whatever order they come
in, and when the last stream has ended the end comes behind them. How many branches a join has, and
what they are started on, is told by the rows of its left argument. -/
namespace SolutionFlow

namespace Trace

/-- The accepted rows, as often as they have come. -/
def rows (t : Trace) : Multiset Solution := (t.accepted : Multiset Solution)

@[simp]
theorem rows_nil : rows [] = 0 := rfl

@[simp]
theorem rows_append (t u : Trace) : rows (t ++ u) = t.rows + u.rows := by
  rw [rows, accepted_append, ← Multiset.coe_add]
  rfl

/-- The stream has ended without a failure. -/
def Completes (t : Trace) : Prop := t.ended = true ∧ t.failed = false

/-- All that a completed stream has said: its rows, and the end behind them. -/
theorem Completes.eq {t : Trace} (h : t.Completes) (hOrderly : t.Orderly) :
    t = t.accepted.map (.row · true) ++ [.finish] := by
  have hTrace := eq_of_orderly hOrderly (hOrderly.not_refused h.1) h.2
  rwa [if_pos h.1] at hTrace

end Trace

namespace Operator

variable {env : Environment}

namespace Strand

/-- The rows of some strands, together. -/
def allRows (strands : List Strand) : Multiset Solution :=
  (strands.map fun strand => strand.trace.rows).sum

theorem allRows_append (strands more : List Strand) :
    allRows (strands ++ more) = allRows strands + allRows more := by
  rw [allRows, List.map_append, List.sum_append]
  rfl

/-- New strands have no rows yet. -/
theorem allRows_new (seeds : List Solution) : allRows (seeds.map new) = 0 := by
  induction seeds with
  | nil => rfl
  | cons seed rest ih =>
      rw [allRows, List.map_cons, List.map_cons, List.sum_cons]
      exact (zero_add _).trans ih

/-- What one strand says adds its rows to those of all. -/
theorem allRows_say (before after : List Strand) (strand : Strand) (t : Trace) :
    allRows (before ++ strand.say t :: after) = allRows (before ++ strand :: after) + t.rows := by
  simp only [allRows, List.map_append, List.map_cons, List.sum_append, List.sum_cons, say,
    Trace.rows_append]
  abel

end Strand

/-- A completion hands on what it is given. -/
theorem rows_of_completion_relays {c c' : Completion} {e : Event} {t : Trace}
    (h : Completion.pipe.Relays c e t c') : t.rows = Trace.rows [e] := by
  rw [Completion.relays_pipe] at h
  cases e with
  | row row more =>
      obtain ⟨-, rfl, rfl, -⟩ | ⟨-, rfl, -⟩ := Completion.says_forward.mp h
      · rfl
      · rfl
  | finish =>
      obtain ⟨-, rfl⟩ := Completion.says_finish.mp h
      split <;> rfl
  | fail error =>
      obtain ⟨rfl, -⟩ := h
      rfl

/-- So does a join with its branches. -/
theorem rows_of_join_relays {s : Joining} {op' : Operator} {k : Nat} {e : Event} {t : Trace}
    (h : (pipe env k).Relays (.join s) e t op') :
    (∃ s', op' = .join s') ∧ t.rows = Trace.rows [e] := by
  obtain ⟨s', rfl, hBranch⟩ := (Pipe.relays_react rfl).mp h
  obtain ⟨c, -, hRelays⟩ := Joining.relays_branchPipe.mp hBranch
  exact ⟨⟨s', rfl⟩, rows_of_completion_relays hRelays⟩

theorem rows_of_union_relays {c : Completion} {op' : Operator} {k : Nat} {e : Event} {t : Trace}
    (h : (pipe env k).Relays (.union c) e t op') :
    (∃ c', op' = .union c') ∧ t.rows = Trace.rows [e] := by
  obtain ⟨c', rfl, hRelays⟩ := (Pipe.relays_react rfl).mp h
  exact ⟨⟨c', rfl⟩, rows_of_completion_relays hRelays⟩

/-- A join answers its left argument without rows, and opens a branch for each row that it
accepts. -/
theorem rows_of_join_hears {s : Joining} {op' : Operator} {e : Event} {t : Trace}
    {seeds : List Solution} (h : (Operator.join s).Hears env e t op' seeds) :
    (∃ s', op' = .join s') ∧ seeds = Trace.accepted [e] ∧ t.rows = 0 := by
  cases e with
  | row row more =>
      obtain ⟨-, rfl, rfl, rfl, rfl⟩ | ⟨-, rfl, hOpened⟩ := relays_lead_join_row.mp h
      · exact ⟨⟨s, rfl⟩, rfl, rfl⟩
      · obtain ⟨rfl, rfl, rfl⟩ := says_openBranch_done.mp hOpened
        exact ⟨⟨_, rfl⟩, rfl, rfl⟩
  | finish =>
      obtain ⟨hFinish, rfl⟩ := (relays_lead_finish (by simp) (by simp)).mp h
      obtain ⟨hJoin, hRows⟩ := rows_of_join_relays hFinish
      exact ⟨hJoin, rfl, hRows⟩
  | fail error =>
      obtain ⟨hFail, rfl⟩ := relays_lead_fail.mp h
      obtain ⟨hJoin, hRows⟩ := rows_of_join_relays hFail
      exact ⟨hJoin, rfl, hRows⟩

namespace Weaves

variable {op : Operator} {opened strands : List Strand} {lead said : Trace}

/-- In a join there is a branch for each left row, and all rows of all branches are handed on. -/
theorem join_rows {s₀ : Joining} (weave : Weaves env (.join s₀) [] op lead strands said) :
    (∃ s, op = .join s) ∧ strands.map (·.seed) = lead.accepted ∧
      said.rows = Strand.allRows strands := by
  induction weave with
  | nil => exact ⟨⟨s₀, rfl⟩, rfl, rfl⟩
  | lead prior last ih =>
      obtain ⟨⟨s, rfl⟩, hSeeds, hRows⟩ := ih
      obtain ⟨hJoin, rfl, hSilent⟩ := rows_of_join_hears last
      refine ⟨hJoin, ?_, ?_⟩
      · rw [List.map_append, hSeeds, List.map_map, Trace.accepted_append]
        exact congrArg _ (List.map_id _)
      · rw [Trace.rows_append, hRows, hSilent, Strand.allRows_append, Strand.allRows_new]
  | branch prior hGet last ih =>
      obtain ⟨⟨s, rfl⟩, hSeeds, hRows⟩ := ih
      obtain ⟨hJoin, hSaid⟩ := rows_of_join_relays last
      obtain ⟨before, after, rfl, hSet⟩ := exists_around hGet
      refine ⟨hJoin, ?_, ?_⟩
      · rw [hSet, ← hSeeds]
        simp [Strand.say]
      · rw [hSet, Strand.allRows_say, Trace.rows_append, hRows, hSaid]

/-- All rows of both arguments of a union are handed on. -/
theorem union_rows {c₀ : Completion} {seed : Solution}
    (weave : Weaves env (.union c₀) [.new seed] op lead strands said) :
    (∃ c, op = .union c) ∧ said.rows = lead.rows + Strand.allRows strands := by
  induction weave with
  | nil => exact ⟨⟨c₀, rfl⟩, rfl⟩
  | lead prior last ih =>
      obtain ⟨⟨c, rfl⟩, hRows⟩ := ih
      obtain ⟨hRelays, rfl⟩ := (hears_iff rfl).mp last
      obtain ⟨hUnion, hSaid⟩ := rows_of_union_relays hRelays
      refine ⟨hUnion, ?_⟩
      rw [List.map_nil, List.append_nil, Trace.rows_append, Trace.rows_append, hRows, hSaid]
      abel
  | branch prior hGet last ih =>
      obtain ⟨⟨c, rfl⟩, hRows⟩ := ih
      obtain ⟨hUnion, hSaid⟩ := rows_of_union_relays last
      obtain ⟨before, after, rfl, hSet⟩ := exists_around hGet
      refine ⟨hUnion, ?_⟩
      rw [hSet, Strand.allRows_say, Trace.rows_append, hRows, hSaid, add_assoc]

/-- An operator that merges streams, and is refused no row, ends with the last of its arguments, and
has not failed if none of them has. -/
theorem completes {start : Operator} {c : Completion} {own : Bool}
    (hStart : start.merging? = some (c, own))
    (hFirst : c.Merges ([] :: opened.map (·.trace)) [])
    (weave : Weaves env start opened op lead strands said) (hLead : lead.Orderly)
    (hStrands : ∀ strand ∈ strands, strand.trace.Orderly) (hRefused : said.refused = false) :
    (said.ended = true ↔ lead.ended = true ∧ ∀ strand ∈ strands, strand.trace.ended = true) ∧
      (lead.Completes → (∀ strand ∈ strands, strand.trace.Completes) →
        said = said.accepted.map (.row · true) ++ [.finish]) := by
  obtain ⟨c', -, hMerges⟩ := weave.merges hStart hFirst hLead hStrands
  have hEnded : said.ended = true ↔
      lead.ended = true ∧ ∀ strand ∈ strands, strand.trace.ended = true := by
    rw [hMerges.ended, hMerges.stopped, hRefused, hMerges.count, List.countP_eq_zero]
    simp
  refine ⟨hEnded, fun hLeadDone hDone => Trace.Completes.eq ⟨?_, ?_⟩ hMerges.orderly⟩
  · exact hEnded.mpr ⟨hLeadDone.1, fun strand hMem => (hDone strand hMem).1⟩
  · rw [← Bool.not_eq_true]
    intro hFailed
    obtain ⟨s, hMem, hBlame⟩ := hMerges.blamed hFailed
    have hInnocent : s.Completes ∧ s.Orderly := by
      rcases List.mem_cons.mp hMem with rfl | hStrand
      · exact ⟨hLeadDone, hLead⟩
      · obtain ⟨strand, hIn, rfl⟩ := List.mem_map.mp hStrand
        exact ⟨hDone strand hIn, hStrands strand hIn⟩
    rcases hBlame with hFails | hRefuses
    · simp [hInnocent.1.2] at hFails
    · simp [hInnocent.2.not_refused hInnocent.1.1] at hRefuses

end Weaves

end Operator

namespace Plan

variable {env : Environment}

/-- Every run of a join or a union takes apart into runs of its branches: one for each row of the left
argument of a join, which runs the right argument on that row, and one for each argument of a union.
In whatever order the branches speak, a consumer that refuses no row receives exactly the rows of all
branches; its stream ends with the last of them; and when all have ended without a failure, it has
received one end, which is behind all rows. -/
theorem join_union_completes (left right : Plan) (seed : Solution) (scope : Scope) :
    (∀ {steps t p}, Run env ((join left right).start env seed scope) steps t p →
      t.refused = false →
        Nonempty (Split env (.join ⟨right, scope.descend, .new 1⟩) []
          (left.start env seed scope.descend) (fun row => right.start env row scope.descend)
          steps t p) ∧
        ∀ split : Split env (.join ⟨right, scope.descend, .new 1⟩) []
            (left.start env seed scope.descend) (fun row => right.start env row scope.descend)
            steps t p,
          split.threads.map (·.strand.seed) = split.lead.accepted ∧
          t.rows = (split.threads.map (·.strand.trace.rows)).sum ∧
          (t.ended = true ↔ split.lead.ended = true ∧
            ∀ thread ∈ split.threads, thread.strand.trace.ended = true) ∧
          (split.lead.Completes → (∀ thread ∈ split.threads, thread.strand.trace.Completes) →
            t = t.accepted.map (.row · true) ++ [.finish])) ∧
    (∀ {steps t p}, Run env ((union left right).start env seed scope) steps t p →
      t.refused = false →
        Nonempty (Split env (.union (.new 2)) [.new seed] (left.start env seed scope.descend)
          (fun _ => right.start env seed scope.descend) steps t p) ∧
        ∀ split : Split env (.union (.new 2)) [.new seed] (left.start env seed scope.descend)
            (fun _ => right.start env seed scope.descend) steps t p,
          ∃ other : Thread,
            split.threads = [other] ∧
            t.rows = split.lead.rows + other.strand.trace.rows ∧
            (t.ended = true ↔ split.lead.ended = true ∧ other.strand.trace.ended = true) ∧
            (split.lead.Completes → other.strand.trace.Completes →
              t = t.accepted.map (.row · true) ++ [.finish])) := by
  constructor
  · intro steps t p run hRefused
    refine ⟨split_join run, fun split => ?_⟩
    have hThreads : ∀ strand ∈ split.threads.map (·.strand), strand.trace.Orderly :=
      List.forall_mem_map.mpr fun thread hMem =>
        (right.keeps (split.threads_run thread hMem)).orderly
    obtain ⟨-, hSeeds, hRows⟩ := split.weaves.join_rows
    obtain ⟨hEnded, hCompletes⟩ := split.weaves.completes rfl (.new Nat.one_pos)
      (left.keeps split.lead_runs).orderly hThreads hRefused
    rw [List.map_map] at hSeeds
    rw [Operator.Strand.allRows, List.map_map] at hRows
    refine ⟨hSeeds, hRows, ?_, ?_⟩
    · simpa using hEnded
    · simpa using hCompletes
  · intro steps t p run hRefused
    refine ⟨split_union run, fun split => ?_⟩
    obtain ⟨other, hOther⟩ := split.threads_union rfl
    have hRight : other.strand.trace.Orderly :=
      (right.keeps (split.threads_run other (by simp [hOther]))).orderly
    obtain ⟨-, hRows⟩ := split.weaves.union_rows
    obtain ⟨hEnded, hCompletes⟩ := split.weaves.completes rfl (.new Nat.two_pos)
      (left.keeps split.lead_runs).orderly (by simpa [hOther] using hRight) hRefused
    refine ⟨other, hOther, ?_, ?_, ?_⟩
    · simpa [Operator.Strand.allRows, hOther] using hRows
    · simpa [hOther] using hEnded
    · simpa [hOther] using hCompletes

/-- A join with two left rows, and a union of two sources of one row, are completed. -/
theorem join_union_completes_sources :
    let env : Environment := .ofDataset .empty
    let rows : Plan := inline [] [.empty, .empty]
    (∃ t p, ∃ split : Split env (.join ⟨singleton, .root, .new 1⟩) []
        (rows.start env .empty .root) (fun row => singleton.start env row .root) 4 t p,
      t.refused = false ∧ split.lead.Completes ∧
      (∀ thread ∈ split.threads, thread.strand.trace.Completes) ∧
      t.rows = (split.threads.map (·.strand.trace.rows)).sum ∧
      t = t.accepted.map (.row · true) ++ [.finish]) ∧
    (∃ t p, ∃ split : Split env (.union (.new 2)) [.new .empty]
        (singleton.start env .empty .root) (fun _ => singleton.start env .empty .root) 0 t p,
      t.refused = false ∧ split.lead.Completes ∧
      (∀ thread ∈ split.threads, thread.strand.trace.Completes) ∧
      t = t.accepted.map (.row · true) ++ [.finish]) := by
  intro env rows
  have hTrusted : ∀ {plan : Plan} {seed steps t p}, plan.sliceFree = true →
      Run env (plan.start env seed .root) steps t p → t.ended = true → t.Completes := by
    intro plan seed steps t p hFree run hEnded
    refine ⟨hEnded, ?_⟩
    rw [← Bool.not_eq_true]
    exact fun hFailed => (plan.keeps run).certified hFree ⟨hEnded, hFailed⟩
  constructor
  · have first : Run env ((join rows singleton).start env .empty .root) 0 [] _ :=
      .start ⟨.starting 0, rfl, rfl⟩
    have called : Run env ((join rows singleton).start env .empty .root) 1 [] _ :=
      first.step (show Process.Live _ [0] from ⟨_, rfl, rfl⟩) ⟨.starting 0, .starting 0, rfl, rfl⟩
    have one : Run env ((join rows singleton).start env .empty .root) 2 [.row .empty true] _ :=
      called.step (show Process.Live _ [0] from ⟨_, rfl, rfl⟩)
        ⟨true, _, rfl, .starting 0, rfl, rfl⟩
    have both : Run env ((join rows singleton).start env .empty .root) 3
        [.row .empty true, .row .empty true] _ :=
      one.step (show Process.Live _ [0] from ⟨_, rfl, rfl⟩)
        ⟨true, _, rfl, .starting 0, rfl, rfl⟩
    have run : Run env ((join rows singleton).start env .empty .root) 4
        [.row .empty true, .row .empty true, .finish] _ :=
      both.step (show Process.Live _ [0] from ⟨_, rfl, rfl⟩) ⟨_, rfl, rfl, rfl⟩
    obtain ⟨⟨split⟩, hSplits⟩ := (join_union_completes rows singleton .empty .root).1 run rfl
    obtain ⟨-, hRows, hEnded, hAll⟩ := hSplits split
    obtain ⟨hLead, hThreads⟩ := hEnded.mp rfl
    have hLeadDone := hTrusted rfl split.lead_runs hLead
    have hDone := fun thread hMem =>
      hTrusted rfl (split.threads_run thread hMem) (hThreads thread hMem)
    exact ⟨_, _, split, rfl, hLeadDone, hDone, hRows, hAll hLeadDone hDone⟩
  · have run : Run env ((union singleton singleton).start env .empty .root) 0
        [.row .empty true, .row .empty true, .finish] _ :=
      .start ⟨true, _, rfl, true, _, rfl, _, rfl, rfl, rfl⟩
    obtain ⟨⟨split⟩, hSplits⟩ := (join_union_completes singleton singleton .empty .root).2 run rfl
    obtain ⟨other, hOther, -, hEnded, hAll⟩ := hSplits split
    obtain ⟨hLead, hThread⟩ := hEnded.mp rfl
    have hLeadDone := hTrusted rfl split.lead_runs hLead
    have hDone := hTrusted rfl (split.threads_run other (by simp [hOther])) hThread
    exact ⟨_, _, split, rfl, hLeadDone, by simpa [hOther] using hDone, hAll hLeadDone hDone⟩

end Plan

end SolutionFlow
