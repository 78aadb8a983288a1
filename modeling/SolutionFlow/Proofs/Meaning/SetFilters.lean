import SolutionFlow.Proofs.Contract.Sifting
import SolutionFlow.Proofs.Flow.Streams
import SolutionFlow.Proofs.Meaning.Chains
import SolutionFlow.Proofs.Meaning.Sieving

/-! Intersections and differences of any plans. The right rows are collected first, and with their end the left
argument is started, once. Its rows are handed on in their order, with their repetitions, if they stay next to
the right rows; whether these are kept in memory or in a file makes no difference. -/
namespace SolutionFlow

namespace SetFilter

variable {s s' : SetFilter}

/-- Whatever is heard of the arguments, the left one is to be started on the same seed. -/
theorem seed_of_onRightRow {row : Solution} {more : Bool} {t : Trace}
    (h : (s.onRightRow row).Says t (more, s')) : s'.seed = s.seed := by
  obtain ⟨right, rfl, -⟩ := says_onRightRow h
  rfl

theorem seed_of_relays {e : Event} {t : Trace} (h : leftPipe.Relays s e t s') : s'.seed = s.seed := by
  rw [relays_leftPipe] at h
  cases e with
  | row row more => rw [(says_onLeftRow h).1]
  | finish | fail error =>
      rw [h.2]
      rfl

end SetFilter

namespace Operator.Weaves

variable {env : Environment} {op : Operator} {strands : List Strand} {lead said : Trace}

/-- All branches of an intersection or a difference are started on its seed. -/
theorem seeds_of_setFilter {s₀ : SetFilter}
    (weave : Weaves env (.setFilter s₀) [] op lead strands said) :
    ∃ s, op = .setFilter s ∧ s.seed = s₀.seed ∧ ∀ strand ∈ strands, strand.seed = s₀.seed := by
  induction weave with
  | nil => exact ⟨s₀, rfl, rfl, by simp⟩
  | lead prior last ih =>
      rename_i op op' lead said t strands e seeds
      obtain ⟨s, rfl, hSeed, hStrands⟩ := ih
      cases e with
      | row row more =>
          obtain ⟨s', hRow, rfl, rfl⟩ := relays_lead_setFilter_row.mp last
          exact ⟨s', rfl, (SetFilter.seed_of_onRightRow hRow).trans hSeed, by simpa using hStrands⟩
      | finish =>
          obtain ⟨rfl, rfl, rfl⟩ := says_openBranch_done.mp (relays_lead_setFilter_finish.mp last)
          refine ⟨s, rfl, hSeed, List.forall_mem_append.mpr ⟨hStrands, ?_⟩⟩
          simpa [Strand.new] using hSeed
      | fail error =>
          obtain ⟨hFail, rfl⟩ := relays_lead_fail.mp last
          obtain ⟨s', rfl, hBranch⟩ := (Pipe.relays_react rfl).mp hFail
          exact ⟨s', rfl, (SetFilter.seed_of_relays hBranch).trans hSeed, by simpa using hStrands⟩
  | branch prior hGet last ih =>
      obtain ⟨s, rfl, hSeed, hStrands⟩ := ih
      obtain ⟨s', rfl, hBranch⟩ := (Pipe.relays_react rfl).mp last
      have hSpeaker := hStrands _ (List.mem_of_getElem? hGet)
      refine ⟨s', rfl, (SetFilter.seed_of_relays hBranch).trans hSeed, fun strand hMem => ?_⟩
      rcases List.mem_or_eq_of_mem_set hMem with hOld | rfl
      · exact hStrands strand hOld
      · exact hSpeaker

end Operator.Weaves

/-- When no job of a plan is left, its stream is complete, if no row has been refused and nothing has failed. -/
theorem Plan.completes_of_finished {env : Environment} {arg : Plan} {seed : Solution} {scope : Scope} {steps : Nat}
    {t : Trace} {p : Process} (run : Run env (arg.start env seed scope) steps t p) (hFinished : p.Finished)
    (hRefused : t.refused = false) (hFailed : t.failed = false) : t.Completes :=
  ⟨by simpa [Trace.isOver, hRefused, hFailed] using (arg.keeps run).settled hFinished, hFailed⟩

namespace SetOperator

variable {left right : Bag} {names : List String}

/-- The left rows that stay, in their order. -/
def kept (op : SetOperator) (lefts : List Solution) (rights : Bag) : List Solution :=
  lefts.filter (decide <| op.Retains rights ·)

theorem coe_kept (op : SetOperator) (lefts : List Solution) (rights : Bag) :
    (op.kept lefts rights : Bag) = op.sieve lefts rights := rfl

/-- A row has another one that shares a name with it and is compatible with it. -/
theorem retains_difference_iff {row : Solution} :
    difference.Retains right row ↔ ¬∃ other ∈ right, (∃ name, other.binds name ∧ row.binds name) ∧
      ∀ name x y, other.get? name = some x → row.get? name = some y → x = y := by
  simp only [Retains, Bool.and_eq_true, Solution.sharesName_iff, Solution.compatible_iff, not_exists, not_and]

/-- Rows that bind the same names, and some, are compatible if they are equal. -/
theorem retains_difference_iff_not_mem (hNames : names ≠ []) {row : Solution}
    (hRow : ∀ name, row.binds name = true ↔ name ∈ names)
    (hRight : ∀ other ∈ right, ∀ name, other.binds name = true ↔ name ∈ names) :
    difference.Retains right row ↔ row ∉ right := by
  rw [retains_difference_iff, not_iff_not]
  constructor
  · rintro ⟨other, hOther, -, hAgree⟩
    obtain rfl : other = row := by
      refine Solution.ext_get? fun name => ?_
      have hSame : other.binds name = row.binds name := by
        rw [Bool.eq_iff_iff, hRight other hOther, hRow]
      rw [Solution.binds, Solution.binds] at hSame
      cases hX : other.get? name with
      | none => exact (Option.not_isSome_iff_eq_none.mp (by simp [← hSame, hX])).symm
      | some x =>
          obtain ⟨y, hY⟩ := Option.isSome_iff_exists.mp (hSame.symm.trans (by rw [hX]; rfl))
          rw [hY, hAgree name x y hX hY]
    exact hOther
  · intro hMem
    obtain ⟨name, hName⟩ := List.exists_mem_of_ne_nil names hNames
    have hBound := (hRow name).mpr hName
    exact ⟨row, hMem, ⟨name, hBound, hBound⟩, fun _ x y hX hY => Option.some.inj (hX.symm.trans hY)⟩

/-- Then an intersection and a difference share the left rows between them. -/
theorem kept_add_kept {lefts : List Solution} (hNames : names ≠ [])
    (hLeft : ∀ row ∈ lefts, ∀ name, row.binds name = true ↔ name ∈ names)
    (hRight : ∀ row ∈ right, ∀ name, row.binds name = true ↔ name ∈ names) :
    (intersection.kept lefts right : Bag) + difference.kept lefts right = lefts := by
  have hDifference : difference.sieve lefts right = Multiset.filter (· ∉ right) lefts :=
    Multiset.filter_congr fun row hRow =>
      retains_difference_iff_not_mem hNames (hLeft row hRow) hRight
  rw [coe_kept, coe_kept, hDifference]
  exact Multiset.filter_add_not _ _

section

variable {op : SetOperator} {env : Environment} {left right : Plan} {seed : Solution} {scope : Scope}
  {steps : Nat} {t : Trace} {p : Process}

/-- What a run of an intersection or a difference consists of. -/
abbrev Parts (op : SetOperator) (env : Environment) (left right : Plan) (seed : Solution) (scope : Scope) :=
  Split env (.setFilter ⟨op, left, seed, scope.descend, .new env.spill⟩) []
    (right.start env seed scope.descend) (fun row => left.start env row scope.descend)

/-- The strands of the left argument keep the order. -/
theorem orderly_strands (parts : op.Parts env left right seed scope steps t p) :
    ∀ strand ∈ parts.threads.map (·.strand), strand.trace.Orderly :=
  List.forall_mem_map.mpr fun thread hMem => (left.keeps (parts.threads_run thread hMem)).orderly

/-- The left argument is started with the end of the right one, and then never again. -/
theorem length_threads (parts : op.Parts env left right seed scope steps t p) :
    parts.threads.length = if parts.lead.ended then 1 else 0 := by
  obtain ⟨s, -, hSifts⟩ := parts.weaves.sifts rfl (right.keeps parts.lead_runs).orderly
    (orderly_strands parts)
  simpa using hSifts.length

/-- It is started on the seed. -/
theorem seed_of_threads (parts : op.Parts env left right seed scope steps t p) :
    ∀ thread ∈ parts.threads, thread.strand.seed = seed := by
  obtain ⟨-, -, -, hStrands⟩ := parts.weaves.seeds_of_setFilter
  exact fun thread hMem => hStrands _ (List.mem_map_of_mem hMem)

theorem threads_run (parts : op.Parts env left right seed scope steps t p) {thread : Thread}
    (hMem : thread ∈ parts.threads) : thread.Runs env (left.start env seed scope.descend) :=
  seed_of_threads parts thread hMem ▸ parts.threads_run thread hMem

/-- If nothing has failed, nothing has failed in the arguments, and no right row has been refused. -/
theorem unfailed_parts (parts : op.Parts env left right seed scope steps t p) (hFailed : t.failed = false) :
    parts.lead.failed = false ∧ parts.lead.refused = false ∧
      ∀ thread ∈ parts.threads, thread.strand.trace.failed = false := by
  obtain ⟨s, -, hSifts⟩ := parts.weaves.sifts rfl (right.keeps parts.lead_runs).orderly
    (orderly_strands parts)
  refine ⟨?_, ?_, fun thread hThread => ?_⟩
  · exact Bool.eq_false_iff.mpr fun hLead => by simp [hSifts.failed (.inl hLead)] at hFailed
  · exact Bool.eq_false_iff.mpr fun hLead => by simp [hSifts.failed (.inr hLead)] at hFailed
  · refine Bool.eq_false_iff.mpr fun hThreadFailed => ?_
    have hAll : Trace.failed ((parts.threads.map (·.strand)).map (·.trace)).flatten = true := by
      obtain ⟨e, hEvent, hFailure⟩ := List.any_eq_true.mp hThreadFailed
      have hTrace := List.mem_map_of_mem (f := (·.trace)) (List.mem_map_of_mem (f := (·.strand)) hThread)
      exact List.any_eq_true.mpr ⟨e, List.mem_flatten.mpr ⟨_, hTrace, hEvent⟩, hFailure⟩
    simp [hSifts.abides.failed hAll] at hFailed

/-- Of a run in which no failure is told and no row refused, all that is told are the left rows that stay next
to the right rows, as they come, and the end with that of the left rows. -/
theorem told_eq (parts : op.Parts env left right seed scope steps t p) (hOrderly : t.Orderly)
    (hRefused : t.refused = false) (hFailed : t.failed = false) :
    (∀ thread ∈ parts.threads, thread.strand.trace.refused = false) ∧
      t = (op.kept (parts.threads.flatMap (·.strand.trace.accepted)) parts.lead.rows).map (Event.row · true) ++
        if parts.threads.any (·.strand.trace.ended) then [Event.finish] else [] := by
  obtain ⟨hLeadFailed, hLeadRefused, hThreadsFailed⟩ := unfailed_parts parts hFailed
  obtain ⟨members, -, hSieves⟩ := parts.weaves.sieves (MemberSet.has_new env.spill) (.inr hLeadRefused)
    (right.keeps parts.lead_runs).orderly hLeadFailed (orderly_strands parts)
    (List.forall_mem_map.mpr hThreadsFailed)
  generalize hThreads : parts.threads.map (·.strand) = strands at hSieves
  cases hSieves with
  | collecting =>
      rw [List.map_eq_nil_iff.mp hThreads]
      exact ⟨by simp, rfl⟩
  | sifting _ _ _ hAccepted hSaid hStopped _ =>
      obtain ⟨thread, hThread, hStrand⟩ := List.map_eq_singleton_iff.mp hThreads
      refine ⟨fun other hMem => ?_, ?_⟩
      · obtain rfl : other = thread := by simpa [hThread] using hMem
        rw [hStrand, ← hStopped, hRefused]
      · rw [hThread, List.flatMap_singleton, List.any_cons, List.any_nil, Bool.or_false, hStrand, kept,
          ← hAccepted, ← hSaid]
        exact Trace.eq_of_orderly hOrderly hRefused hFailed

/-- When no job is left, both arguments have ended behind their rows. -/
theorem parts_of_finished (parts : op.Parts env left right seed scope steps t p) (hOrderly : t.Orderly)
    (hRefused : t.refused = false) (hFailed : t.failed = false) (hFinished : p.Finished) :
    ∃ (thread : Thread) (lefts rights : List Solution), parts.threads = [thread] ∧
      parts.lead = rights.map (Event.row · true) ++ [Event.finish] ∧
      thread.strand.trace = lefts.map (Event.row · true) ++ [Event.finish] ∧
      t = (op.kept lefts rights).map (Event.row · true) ++ [Event.finish] := by
  obtain ⟨hLeadFailed, hLeadRefused, hUnfailed⟩ := unfailed_parts parts hFailed
  obtain ⟨hUnrefused, hTold⟩ := told_eq parts hOrderly hRefused hFailed
  obtain ⟨hChild, hThreads⟩ := parts.finished_iff.mp hFinished
  have hLead := Plan.completes_of_finished parts.lead_runs hChild hLeadRefused hLeadFailed
  have hOne : parts.threads.length = 1 := by rw [length_threads parts, if_pos hLead.1]
  obtain ⟨thread, hThread⟩ := List.length_eq_one_iff.mp hOne
  have hMem : thread ∈ parts.threads := by simp [hThread]
  have run := threads_run parts hMem
  have hStrand := Plan.completes_of_finished run (hThreads thread hMem) (hUnrefused thread hMem)
    (hUnfailed thread hMem)
  refine ⟨thread, _, _, hThread, hLead.eq (right.keeps parts.lead_runs).orderly,
    hStrand.eq (left.keeps run).orderly, ?_⟩
  rw [hThread, List.flatMap_singleton, List.any_cons, hStrand.1, Bool.true_or, if_pos rfl] at hTold
  exact hTold

/-- If files can be made, nothing fails unless something fails in the arguments. -/
theorem unfailed_of_parts (parts : op.Parts env left right seed scope steps t p)
    (hWrite : env.spill.canWrite = true) (hLead : parts.lead.failed = false)
    (hThreads : ∀ thread ∈ parts.threads, thread.strand.trace.failed = false) : t.failed = false := by
  obtain ⟨members, -, hSieves⟩ := parts.weaves.sieves (MemberSet.has_new env.spill) (.inl hWrite)
    (right.keeps parts.lead_runs).orderly hLead (orderly_strands parts)
    (List.forall_mem_map.mpr hThreads)
  generalize parts.threads.map (·.strand) = strands at hSieves
  cases hSieves with
  | collecting => rfl
  | sifting _ _ _ _ _ _ hFailed => exact hFailed

/-- If the arguments supply rows, a run has no more steps than theirs together, and nothing fails if files can
be made. -/
theorem unfailed_of_supplies {boundLeft boundRight : Nat} {P Q : List Solution → Prop}
    (hLeft : Process.Supplies env (left.start env seed scope.descend) boundLeft P)
    (hRight : Process.Supplies env (right.start env seed scope.descend) boundRight Q)
    (hWrite : env.spill.canWrite = true) (run : Run env ((op.plan left right).start env seed scope) steps t p) :
    steps ≤ boundRight + boundLeft ∧ t.failed = false := by
  obtain ⟨parts⟩ := split_plan run
  obtain ⟨hLeadSteps, rights, -, hLead⟩ := hRight parts.lead_runs
  have hThreads : ∀ thread ∈ parts.threads,
      thread.steps ≤ boundLeft ∧ thread.strand.trace.failed = false := fun thread hMem => by
    obtain ⟨hSteps, lefts, -, hStrand⟩ := hLeft (threads_run parts hMem)
    exact ⟨hSteps, hStrand.unfailed⟩
  refine ⟨?_, unfailed_of_parts parts hWrite hLead.unfailed fun thread hMem => (hThreads thread hMem).2⟩
  have hFew : parts.threads.length ≤ 1 := by
    rw [length_threads parts]
    split <;> simp
  rw [parts.steps_eq]
  match hAll : parts.threads with
  | [] => exact Nat.add_le_add hLeadSteps (Nat.zero_le _)
  | [thread] =>
      have hSteps := (hThreads thread (by simp [hAll])).1
      simpa using Nat.add_le_add hLeadSteps hSteps
  | _ :: _ :: _ => simp [hAll] at hFew

end

/-- An intersection or a difference sifts its left rows by its right rows, whatever both arguments are and
wherever the right rows are kept. At each moment of a run, the left argument has been started, once and on the
seed, exactly if the right one has ended, and if files can be made, nothing has failed unless something has
failed in the arguments. Without refusals and failures, what has been told are the left rows that stay, in
their order and as often as they came, and the end if the left argument has ended. So when no job is left,
all of the left rows that stay have been told, and one end behind them. If the arguments supply rows and files
can be made, nothing fails and no job is left in the end. The left rows that stay in an intersection are those
that equal a right row, and in a difference those for which no right row shares a name and is compatible; if
all rows bind the same names, and some, each left row stays in one of the two. -/
theorem sifts_left_rows (op : SetOperator) (env : Environment) (left right : Plan) (seed : Solution)
    (scope : Scope) :
    (∀ {steps : Nat} {t : Trace} {p : Process},
      Run env ((op.plan left right).start env seed scope) steps t p →
        ∃ parts : op.Parts env left right seed scope steps t p,
          parts.threads.length = (if parts.lead.ended then 1 else 0) ∧
          (∀ thread ∈ parts.threads, thread.Runs env (left.start env seed scope.descend)) ∧
          (env.spill.canWrite = true → parts.lead.failed = false →
            (∀ thread ∈ parts.threads, thread.strand.trace.failed = false) → t.failed = false) ∧
          (t.refused = false → t.failed = false →
            (t = (op.kept (parts.threads.flatMap (·.strand.trace.accepted)) parts.lead.rows).map (Event.row · true) ++
              if parts.threads.any (·.strand.trace.ended) then [Event.finish] else []) ∧
            (p.Finished → ∃ (thread : Thread) (lefts rights : List Solution), parts.threads = [thread] ∧
              parts.lead = rights.map (Event.row · true) ++ [Event.finish] ∧
              thread.strand.trace = lefts.map (Event.row · true) ++ [Event.finish] ∧
              t = (op.kept lefts rights).map (Event.row · true) ++ [Event.finish]))) ∧
    (∀ {boundLeft boundRight : Nat} {P Q : List Solution → Prop},
      Process.Supplies env (left.start env seed scope.descend) boundLeft P →
      Process.Supplies env (right.start env seed scope.descend) boundRight Q → env.spill.canWrite = true →
        (∀ {steps : Nat} {t : Trace} {p : Process},
          Run env ((op.plan left right).start env seed scope) steps t p →
            steps ≤ boundRight + boundLeft ∧ t.failed = false ∧
            (t.refused = false → p.Finished → ∃ lefts rights, P lefts ∧ Q rights ∧
              t = (op.kept lefts rights).map (Event.row · true) ++ [Event.finish])) ∧
        ∃ steps t p, Run env ((op.plan left right).start env seed scope) steps t p ∧ t.refused = false ∧
          p.Finished) ∧
    (∀ (rights : Bag) (row : Solution), (intersection.Retains rights row ↔ row ∈ rights) ∧
      (difference.Retains rights row ↔
        ¬∃ other ∈ rights, (∃ name, other.binds name ∧ row.binds name) ∧
          ∀ name x y, other.get? name = some x → row.get? name = some y → x = y)) ∧
    ∀ (lefts rights : List Solution) (names : List String), names ≠ [] →
      (∀ row ∈ lefts, ∀ name, row.binds name = true ↔ name ∈ names) →
      (∀ row ∈ rights, ∀ name, row.binds name = true ↔ name ∈ names) →
        (intersection.kept lefts rights : Bag) + difference.kept lefts rights = lefts := by
  refine ⟨fun {steps t p} run => ?_, fun {boundLeft boundRight P Q} hLeft hRight hWrite => ?_,
    fun rights row => ⟨Iff.rfl, retains_difference_iff⟩,
    fun lefts rights names hNames hLefts hRights => kept_add_kept hNames hLefts hRights⟩
  · have hOrderly := ((op.plan left right).keeps run).orderly
    obtain ⟨parts⟩ := split_plan run
    exact ⟨parts, length_threads parts, fun thread hMem => threads_run parts hMem, unfailed_of_parts parts,
      fun hRefused hFailed => ⟨(told_eq parts hOrderly hRefused hFailed).2,
        parts_of_finished parts hOrderly hRefused hFailed⟩⟩
  · refine ⟨fun {steps t p} run => ?_, ?_⟩
    · obtain ⟨hSteps, hFailed⟩ := unfailed_of_supplies hLeft hRight hWrite run
      refine ⟨hSteps, hFailed, fun hRefused hFinished => ?_⟩
      obtain ⟨parts⟩ := split_plan run
      obtain ⟨thread, lefts, rights, hThread, hLead, hStrand, hTold⟩ :=
        parts_of_finished parts ((op.plan left right).keeps run).orderly hRefused hFailed hFinished
      obtain ⟨-, others, hOthers, hRights⟩ := hRight parts.lead_runs
      have hMem : thread ∈ parts.threads := by simp [hThread]
      obtain ⟨-, rows, hRows, hLefts⟩ := hLeft (threads_run parts hMem)
      rw [hLead] at hRights
      rw [hStrand] at hLefts
      obtain rfl := hRights.rows_eq
      obtain rfl := hLefts.rows_eq
      exact ⟨lefts, rights, hRows, hOthers, hTold⟩
    · exact Plan.exists_finished fun run _ => (unfailed_of_supplies hLeft hRight hWrite run).1

/-- Two tables, with no more than one right row in memory. The row that is repeated stays twice. -/
theorem sifts_left_rows_tables :
    let env : Environment := { Environment.ofDataset .empty with spill := ⟨1, true⟩ }
    let one : Solution := .ofList [("x", .integer 1)]
    let two : Solution := .ofList [("x", .integer 2)]
    let three : Solution := .ofList [("x", .integer 3)]
    let plan := Plan.intersection (.inline ["x"] [one, two, one]) (.inline ["x"] [three, one])
    ∃ steps t p, Run env (plan.start env .empty .root) steps t p ∧ t.refused = false ∧ p.Finished ∧
      t = [.row one true, .row one true, .finish] := by
  intro env one two three plan
  obtain ⟨-, hSupplied, -⟩ := sifts_left_rows intersection env (.inline ["x"] [one, two, one])
    (.inline ["x"] [three, one]) .empty .root
  obtain ⟨hRuns, steps, t, p, run, hRefused, hFinished⟩ :=
    hSupplied (Plan.supplies_inline ["x"] _ .empty) (Plan.supplies_inline ["x"] _ .empty) rfl
  refine ⟨steps, t, p, run, hRefused, hFinished, ?_⟩
  obtain ⟨-, -, hTold⟩ := hRuns run
  obtain ⟨_, _, rfl, rfl, hTrace⟩ := hTold hRefused hFinished
  have hRows : intersection.kept [one, two, one] [three, one] = [one, one] := by decide
  exact hTrace.trans (congrArg (fun rows => rows.map (Event.row · true) ++ [Event.finish]) hRows)

end SetOperator

end SolutionFlow
