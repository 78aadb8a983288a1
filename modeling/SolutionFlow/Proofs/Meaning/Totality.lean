import SolutionFlow.Proofs.Expression.Results
import SolutionFlow.Proofs.Meaning.Offering

/-! Left joins of any arguments under any condition. Every left row is in the result, with all right rows
that the condition lets through for it or else by itself. Names of the seed that the left argument
cannot bind are kept from the arguments and put back into the rows at the end. -/
namespace SolutionFlow

namespace Pipe

variable {σ : Type} {onRow : σ → Solution → Emission (Bool × σ)} {s s' : σ} {heard said : Trace}
  {f : Solution → Option Solution}

/-- An operator that makes at most one row of each row, and does not change, says what it has heard with each
row replaced or left out. -/
theorem passes_ofRow (hRow : ∀ {row t more s'}, (onRow s row).Says t (more, s') →
      s' = s ∧ ((∃ made, f row = some made ∧ t = [.row made more]) ∨
        (f row = none ∧ more = true ∧ t = [])))
    (h : (ofRow onRow).Passes s heard said s') :
    s' = s ∧ said.ended = heard.ended ∧ said.refused = heard.refused ∧ said.failed = heard.failed ∧
      said.accepted = heard.accepted.filterMap f := by
  induction h with
  | nil => exact ⟨rfl, rfl, rfl, rfl, rfl⟩
  | snoc prior last ih =>
      rename_i heard said t e s₁ s'
      obtain ⟨rfl, hEnded, hRefused, hFailed, hAccepted⟩ := ih
      rw [relays_ofRow] at last
      cases e with
      | row row more =>
          obtain ⟨rfl, ⟨made, hMade, rfl⟩ | ⟨hNone, rfl, rfl⟩⟩ := hRow last
          · cases more <;> simp [hEnded, hRefused, hFailed, hAccepted, hMade]
          · simp [hEnded, hRefused, hFailed, hAccepted, hNone]
      | finish =>
          obtain ⟨rfl, rfl⟩ := last
          simp [hRefused, hFailed, hAccepted]
      | fail error =>
          obtain ⟨rfl, rfl⟩ := last
          simp [hEnded, hRefused, hAccepted]

end Pipe

namespace Plan

open LeftJoining

variable {env : Environment} {left right : Plan} {condition : Option Expr} {seed : Solution}
  {scope : Scope} {steps : Nat} {t : Trace} {p : Process}

/-- The names of the seed that a left join keeps from its arguments. -/
def heldBack (left right : Plan) (condition : Option Expr) (seed : Solution) : List String :=
  problemNames left.bindingNames (right.varNames ++ (condition.map Expr.varNames).getD []) seed

/-- Rows that were computed without some names of the seed, with these put back. A row in conflict with
the seed is left out. -/
def restored (names : List String) (seed : Solution) (rows : Bag) : Bag :=
  if names = [] then rows
  else rows.filterMap fun row =>
    if seed.compatible row then some (row.union (seed.restrict names)) else none

/-- A left join starts with its inner part, and with a correction above it if names are held back. -/
theorem start_leftJoin_eq :
    (leftJoin left right condition).start env seed scope =
      if heldBack left right condition seed = [] then
        startLeftJoin env left right condition (seed.without (heldBack left right condition seed)) scope
      else
        Process.underOne env (.correct ⟨seed, heldBack left right condition seed⟩)
          (startLeftJoin env left right condition
            (seed.without (heldBack left right condition seed)) scope) := by
  simp only [start, List.isEmpty_iff]
  rfl

/-- A run of a left join is a run of its inner part, in which the names are put back. -/
theorem inner_of_leftJoin
    (run : Run env ((leftJoin left right condition).start env seed scope) steps t p) :
    ∃ inner q, Run env (startLeftJoin env left right condition
        (seed.without (heldBack left right condition seed)) scope) steps inner q ∧
      (p.Finished ↔ q.Finished) ∧ t.ended = inner.ended ∧ t.refused = inner.refused ∧
      t.failed = inner.failed ∧ t.rows = restored (heldBack left right condition seed) seed inner.rows := by
  rw [start_leftJoin_eq] at run
  split at run
  next hNone => exact ⟨t, p, run, Iff.rfl, rfl, rfl, rfl, by rw [restored, if_pos hNone]⟩
  next hSome =>
    obtain ⟨inner, q, s, hInner, hPasses, hFinished⟩ :=
      Process.passes_underOne (fun _ => rfl) (fun _ _ => rfl) run
    obtain ⟨-, hEnded, hRefused, hFailed, hAccepted⟩ :=
      Pipe.passes_ofRow (fun hSays => Correcting.says_onRow hSays) hPasses
    refine ⟨inner, q, hInner, hFinished, hEnded, hRefused, hFailed, ?_⟩
    rw [Trace.rows, hAccepted, restored, if_neg hSome, Trace.rows, Multiset.filterMap_coe]
    exact congrArg _ (congrArg (fun f => List.filterMap f _) (funext fun row => Correcting.correct?_eq _ row))

/-- Nothing is lost in a left join and nothing is given twice. Every run of it takes apart into a run of
the left argument, from the seed without the names that are held back, and one of the right argument
for each left row. In whatever order they speak, if no row is refused and nothing fails, the result
is made of the right rows that the condition lets through, and of each left row for which there are
none; the names that were held back are put back, and one end comes behind all rows. -/
theorem leftJoin_total
    (run : Run env ((leftJoin left right condition).start env seed scope) steps t p)
    (hRefused : t.refused = false) (hFailed : t.failed = false) :
    ∃ inner q, Run env (startLeftJoin env left right condition
        (seed.without (heldBack left right condition seed)) scope) steps inner q ∧
      Nonempty (Split env (.leftJoin ⟨right, condition, left.bindingNames ++ right.bindingNames,
          scope.descend, .new 1, []⟩) []
        (left.start env (seed.without (heldBack left right condition seed)) scope.descend)
        (fun row => right.start env row scope.descend) steps inner q) ∧
      ∀ split : Split env (.leftJoin ⟨right, condition, left.bindingNames ++ right.bindingNames,
          scope.descend, .new 1, []⟩) []
        (left.start env (seed.without (heldBack left right condition seed)) scope.descend)
        (fun row => right.start env row scope.descend) steps inner q,
      ∃ branches : List Branch,
        branches.map Branch.toStrand = split.threads.map (·.strand) ∧
        branches.map (·.seed) = split.lead.accepted ∧
        (∀ b ∈ branches, Admitted env condition (left.bindingNames ++ right.bindingNames)
          b.trace.accepted b.kept) ∧
        (∀ f : Solution → Bool, (∀ row holds, Verdict env condition
            (left.bindingNames ++ right.bindingNames) row holds → holds = f row) →
          ∀ b ∈ branches, b.kept = b.trace.accepted.filter f) ∧
        (t.ended = true → split.lead.Completes ∧ (∀ b ∈ branches, b.trace.Completes) ∧
          t.rows = restored (heldBack left right condition seed) seed
            (branches.map fun b => if b.kept = [] then {b.seed} else (b.kept : Bag)).sum ∧
          t = t.accepted.map (.row · true) ++ [.finish]) ∧
        (p.Finished → t.ended = true) := by
  have hKeeps := (leftJoin left right condition).keeps run
  obtain ⟨inner, q, hInner, -, hEnds, hRefuses, hFails, hRows⟩ := inner_of_leftJoin run
  rw [hRefuses] at hRefused
  refine ⟨inner, q, hInner, split_leftJoin hInner, fun split => ?_⟩
  have hLead := (left.keeps split.lead_runs).orderly
  have hThreads : ∀ strand ∈ split.threads.map (·.strand), strand.trace.Orderly :=
    List.forall_mem_map.mpr fun thread hMem => (right.keeps (split.threads_run thread hMem)).orderly
  obtain ⟨s, branches, -, hStrands, hOffers⟩ := split.weaves.offers rfl rfl hThreads hRefused
  obtain ⟨c, -, hMerges⟩ := split.weaves.merges rfl (.new Nat.one_pos) hLead hThreads
  refine ⟨branches, hStrands, hOffers.seeds, hOffers.admitted, fun f hSteady b hMem =>
    (hOffers.admitted b hMem).eq_filter fun row _ => hSteady row, fun hEnded => ?_, fun hDone => ?_⟩
  · have hCompletes : ∀ s ∈ split.lead :: (split.threads.map (·.strand)).map (·.trace),
        s.Completes := by
      refine fun s hMem => ⟨hMerges.ended_of_ended (hEnds.symm.trans hEnded) s hMem, ?_⟩
      rw [← Bool.not_eq_true]
      intro hFailing
      simp [hMerges.failed s hMem hFailing, hFails] at hFailed
    rw [← hStrands, List.map_map, List.forall_mem_cons, List.forall_mem_map] at hCompletes
    refine ⟨hCompletes.1, hCompletes.2, ?_, Trace.Completes.eq ⟨hEnded, hFailed⟩ hKeeps.orderly⟩
    rw [hRows, hOffers.rows]
    refine congrArg (restored _ seed) (congrArg List.sum (List.map_congr_left fun b hMem => ?_))
    exact Branch.offer_of_ended (hCompletes.2 b hMem).1
  · have hOver := hKeeps.settled hDone
    simpa [Trace.isOver, hRefuses, hRefused, hFailed] using hOver

/-- A condition on a name that is held back has no value, so that it keeps no row. The left row is given by
itself, although there is a right row, and the name is put back into it. -/
theorem leftJoin_total_unbound :
    let env : Environment := .ofDataset .empty
    let seed : Solution := .ofList [("z", .iri "a")]
    let condition : Option Expr := some (.var "z")
    heldBack singleton singleton condition seed = ["z"] ∧
      ∃ t p, ∃ branches : List Branch,
        Run env ((leftJoin singleton singleton condition).start env seed .root) 0 t p ∧
        t.refused = false ∧ t.failed = false ∧ (∀ b ∈ branches, b.kept = []) ∧
        t.rows = restored ["z"] seed
          (branches.map fun b => if b.kept = [] then {b.seed} else (b.kept : Bag)).sum ∧
        t = [.row seed true, .finish] := by
  intro env seed condition
  have hNames : heldBack singleton singleton condition seed = ["z"] := by
    simp [heldBack, problemNames, sortedNames, varNames, bindingNames, condition, Expr.varNames]
    decide
  let e := (leftJoin singleton singleton condition).start env seed .root
  have hStart : e = Process.underOne env (.correct ⟨seed, ["z"]⟩)
      (startLeftJoin env singleton singleton condition (seed.without ["z"]) .root) := by
    rw [← hNames]
    exact start_leftJoin_eq.trans (if_neg (by simp [hNames]))
  obtain ⟨t, hSays, hRefused, hHeard⟩ := e.says_of_deliver (.starting 0) Recorder.isOpen_new
  have run : Run env e 0 t _ := .start hSays
  have hRows : (e.deliver Recorder.consumer (.starting 0, .new none none)).2.2.rows = [seed] := by
    rw [hStart]
    decide +kernel
  have hErrors : (e.deliver Recorder.consumer (.starting 0, .new none none)).2.2.errors = [] := by
    rw [hStart, ← List.length_eq_zero_iff]
    decide +kernel
  have hEnd : (e.deliver Recorder.consumer (.starting 0, .new none none)).2.2.ends = 1 := by
    rw [hStart]
    decide +kernel
  rw [hHeard] at hRows hErrors hEnd
  have hFailed : t.failed = false :=
    Trace.failures_eq_nil_iff.mp (by simpa [Recorder.hear, Recorder.new] using hErrors)
  obtain ⟨inner, q, -, ⟨split⟩, hSplits⟩ := leftJoin_total run hRefused hFailed
  obtain ⟨branches, -, -, -, hKept, hEnded, -⟩ := hSplits split
  have hNever : ∀ row holds, Verdict env condition [] row holds → holds = false := by
    intro row holds hVerdict
    cases holds with
    | false => rfl
    | true =>
        obtain ⟨clock, hHolds⟩ := hVerdict (.var "z") rfl
        have hUnbound : (row.restrict []).get? "z" = none := by simp [Solution.restrict]
        simp only [Expr.holds, Expr.eval, hUnbound] at hHolds
        cases hHolds
  have hAccepted : t.accepted = [seed] := by simpa [Recorder.hear, Recorder.new] using hRows
  have hEnds : t.ended = true := by
    rw [← Bool.not_eq_false, ← Trace.ends_eq_zero_iff]
    intro hNone
    simp [Recorder.hear, Recorder.new, hNone] at hEnd
  refine ⟨hNames, t, _, branches, run, hRefused, hFailed, fun b hMem => ?_, ?_, ?_⟩
  · rw [hKept _ hNever b hMem, List.filter_false]
  · rw [← hNames]
    exact (hEnded hEnds).2.2.1
  · rw [(hEnded hEnds).2.2.2, hAccepted]
    rfl

end Plan

end SolutionFlow
