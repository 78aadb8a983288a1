import SolutionFlow.Proofs.Contract.Leaves
import SolutionFlow.Proofs.Contract.Sifting
import SolutionFlow.Proofs.Contract.Weaving
import SolutionFlow.Proofs.Flow.Split

/-! The end of a query's stream. Whatever the plan is, and in whatever order its jobs make their
steps, the consumer is told once that the stream is over, after all rows. An end tells that the rows
are complete, unless a slice has ended its stream early. -/
namespace SolutionFlow

/-- No slice is evaluated for the plan. What other evaluators do with plans that they are handed is
their own. -/
def Plan.sliceFree : Plan → Bool
  | .slice .. => false
  | .root arg | .project arg _ | .multiProject arg _ | .filter arg _ | .extend arg _ | .distinct arg
  | .reduced arg | .order arg _ => arg.sliceFree
  | .join left right | .leftJoin left right _ | .union left right | .intersection left right
  | .difference left right => left.sliceFree && right.sliceFree
  | _ => true

namespace Trace

variable {t : Trace}

/-- An orderly stream ends once at most. -/
theorem Orderly.ends_le_one (h : t.Orderly) : t.ends ≤ 1 := by
  induction t with
  | nil => exact Nat.zero_le 1
  | cons e rest ih =>
      obtain ⟨hHead, hRest⟩ := List.pairwise_cons.mp h
      cases e with
      | finish =>
          have hNone : ended rest = false := (open_of_failures fun x hMem => hHead x hMem rfl).1
          have hEnds : ends (.finish :: rest) = ends rest + 1 :=
            List.countP_cons_of_pos (p := Event.isFinish) rfl
          have hZero : ends rest = 0 := ends_eq_zero_iff.mpr hNone
          omega
      | row row more => exact ih hRest
      | fail error => exact ih hRest

/-- Behind its end there are no rows. -/
theorem Orderly.no_row_after_end {before after : Trace} (h : Orderly (before ++ .finish :: after))
    (row : Solution) (more : Bool) : Event.row row more ∉ after := by
  intro hMem
  obtain ⟨-, hAfter, -⟩ := List.pairwise_append.mp h
  have hFailure := (List.pairwise_cons.mp hAfter).1 _ hMem rfl
  exact Bool.false_ne_true hFailure

end Trace

namespace Process

variable {env : Environment} {steps : Nat} {t : Trace} {p : Process} {trusted : Prop}

theorem Keeps.mono {other : Prop} (h : Keeps trusted t p) (hOther : other → trusted) :
    Keeps other t p :=
  ⟨h.orderly, h.settled, fun hTrusted => h.certified (hOther hTrusted)⟩

/-- An operator of one argument keeps its promise if it does its duties. -/
theorem keeps_underOne {σ : Type} {pipe : Pipe σ} {wrap : σ → Operator} {first : σ}
    {Fit Shut : σ → Prop} {arg : Emission Process} (hOpens : ∀ s, (wrap s).opens = false)
    (hReact : ∀ k s, (wrap s).react env k = pipe.react s wrap) (duty : pipe.Dutiful Fit Shut)
    (hFit : Fit first) (hShut : ¬Shut first) (hHonest : trusted → pipe.Honest)
    (hArg : ∀ {steps t p}, Run env arg steps t p → Keeps trusted t p)
    (run : Run env (underOne env (wrap first) arg) steps t p) : Keeps trusted t p := by
  obtain ⟨heard, child, s, hRun, hPasses, hFinished⟩ := passes_underOne hOpens hReact run
  have hKeeps := hArg hRun
  have hAbides := duty.abides hFit hShut hPasses hKeeps.orderly
  refine ⟨hAbides.orderly, fun hDone => hAbides.settled (hKeeps.settled (hFinished.mp hDone)),
    fun hTrusted => ?_⟩
  have hVouches := Pipe.Honest.vouches (hHonest hTrusted) hPasses hKeeps.orderly
  exact hVouches.certified_of (hKeeps.certified hTrusted)

/-- So does one whose answers are all proper. -/
theorem keeps_proper {σ : Type} {pipe : Pipe σ} {wrap : σ → Operator} {first : σ}
    {arg : Emission Process} (hOpens : ∀ s, (wrap s).opens = false)
    (hReact : ∀ k s, (wrap s).react env k = pipe.react s wrap) (hProper : pipe.Proper)
    (hArg : ∀ {steps t p}, Run env arg steps t p → Keeps trusted t p)
    (run : Run env (underOne env (wrap first) arg) steps t p) : Keeps trusted t p :=
  keeps_underOne hOpens hReact hProper.dutiful trivial id (fun _ => hProper.honest) hArg run

end Process

namespace Split

variable {env : Environment} {start : Operator} {opened : List Operator.Strand}
  {first : Emission Process} {spawn : Solution → Emission Process} {steps : Nat} {t : Trace}
  {p : Process} {trusted : Prop}

/-- What is known of a run of each argument. -/
structure KeepsArguments (trusted : Prop) (split : Split env start opened first spawn steps t p) :
    Prop where
  lead : Process.Keeps trusted split.lead split.child
  threads : ∀ thread ∈ split.threads, Process.Keeps trusted thread.strand.trace thread.process

theorem keepsArguments (split : Split env start opened first spawn steps t p)
    (hLead : ∀ {steps t p}, Run env first steps t p → Process.Keeps trusted t p)
    (hThreads : ∀ {seed steps t p}, Run env (spawn seed) steps t p → Process.Keeps trusted t p) :
    split.KeepsArguments trusted :=
  ⟨hLead split.lead_runs, fun thread hMem => hThreads (split.threads_run thread hMem)⟩

/-- An operator that merges its arguments keeps its promise if they do. -/
theorem keeps_merge (split : Split env start opened first spawn steps t p) {c : Completion}
    {own : Bool} (hStart : start.merging? = some (c, own)) (hFirst : c.Merges ([] :: opened.map (·.trace)) [])
    (hArguments : split.KeepsArguments trusted) : Process.Keeps trusted t p := by
  obtain ⟨hLead, hThreads⟩ := hArguments
  have hFinished := split.finished_iff
  obtain ⟨c, -, hMerges⟩ := split.weaves.merges hStart hFirst hLead.orderly
    (List.forall_mem_map.mpr fun thread hMem => (hThreads thread hMem).orderly)
  rw [List.map_map] at hMerges
  refine ⟨hMerges.orderly, fun hDone => hMerges.isOver ?_, fun hTrusted => hMerges.certified ?_⟩
  · obtain ⟨hChild, hOthers⟩ := hFinished.mp hDone
    simp only [List.forall_mem_cons, List.forall_mem_map]
    exact ⟨hLead.settled hChild, fun thread hMem => (hThreads thread hMem).settled (hOthers thread hMem)⟩
  · simp only [List.forall_mem_cons, List.forall_mem_map]
    exact ⟨⟨hLead.orderly, hLead.certified hTrusted⟩, fun thread hMem =>
      ⟨(hThreads thread hMem).orderly, (hThreads thread hMem).certified hTrusted⟩⟩

/-- So does one that sifts its first argument's rows by those of the other. -/
theorem keeps_sift {s : SetFilter}
    (split : Split env (.setFilter s) [] first spawn steps t p) (hFirst : s.right.closed = false)
    (hArguments : split.KeepsArguments trusted) : Process.Keeps trusted t p := by
  obtain ⟨hLead, hThreads⟩ := hArguments
  have hFinished := split.finished_iff
  obtain ⟨s, -, hSifts⟩ := split.weaves.sifts hFirst hLead.orderly
    (List.forall_mem_map.mpr fun thread hMem => (hThreads thread hMem).orderly)
  rw [List.map_map] at hSifts
  refine ⟨hSifts.abides.orderly, fun hDone => ?_, fun hTrusted => ?_⟩
  · obtain ⟨hChild, hOthers⟩ := hFinished.mp hDone
    refine hSifts.isOver (hLead.settled hChild) (List.forall_mem_map.mpr fun thread hMem => ?_)
    exact (hThreads thread hMem).settled (hOthers thread hMem)
  · refine hSifts.certified hLead.orderly (hLead.certified hTrusted)
      (List.forall_mem_map.mpr fun thread hMem => ?_)
    exact (hThreads thread hMem).certified hTrusted

end Split

/-- A sort that has just begun has given up nothing. -/
theorem Sorting.not_shut_new (keys : List (Direction × Expr)) (scope : Scope)
    (spill : SpillOptions) : ¬(Sorting.new keys scope spill).Shut := by
  rintro (hClosed | ⟨seen, hSome, hClosed⟩)
  · simp [Sorting.new, Sorter.new] at hClosed
  · simp only [Sorting.new, Option.ite_none_right_eq_some, Option.some.injEq] at hSome
    obtain ⟨-, rfl⟩ := hSome
    simp [MemberSet.new] at hClosed

namespace Plan

open Process

theorem says_root {env : Environment} {arg : Plan} {seed : Solution} {scope : Scope} {t : Trace}
    {p : Process} (h : ((Plan.root arg).start env seed scope).Says t p) :
    (arg.start env seed scope.descend).Says t p := by
  simp only [start, Emission.says_bind, Emission.says_timed] at h
  obtain ⟨_, _, _, ⟨rfl, -⟩, hRest, rfl⟩ := h
  exact hRest

/-- Every plan keeps its promise, whatever its seed and its place in the query. -/
theorem keeps {env : Environment} :
    (plan : Plan) → ∀ {seed scope steps t p}, Run env (plan.start env seed scope) steps t p →
      Keeps (plan.sliceFree = true) t p
  | .pattern _, _, _, _, _, _, run => (keeps_leaf (startsLeaf_calling _ _) run).mono fun _ => trivial
  | .external _, _, _, _, _, _, run => (keeps_leaf (startsLeaf_calling _ _) run).mono fun _ => trivial
  | .inline _ _, _, _, _, _, _, run => (keeps_leaf (startsLeaf_calling _ _) run).mono fun _ => trivial
  | .zeroLengthPath _, _, _, _, _, _, run =>
      (keeps_leaf (startsLeaf_zeroLength _ _) run).mono fun _ => trivial
  | .arbitraryLengthPath _ _ _, _, _, _, _, _, run =>
      (keeps_leaf (startsLeaf_callingOn _ _ _ _) run).mono fun _ => trivial
  | .group _ _ _, _, _, _, _, _, run =>
      (keeps_leaf (startsLeaf_callingOn _ _ _ _) run).mono fun _ => trivial
  | .describe _, _, _, _, _, _, run =>
      (keeps_leaf (startsLeaf_callingOn _ _ _ _) run).mono fun _ => trivial
  | .service _ _ _, _, _, _, _, _, run =>
      (keeps_leaf (startsLeaf_service _ _ _ _) run).mono fun _ => trivial
  | .singleton, _, _, _, _, _, run => (keeps_leaf (startsLeaf_single _) run).mono fun _ => trivial
  | .empty, _, _, _, _, _, run => (keeps_leaf startsLeaf_nothing run).mono fun _ => trivial
  | .root arg, _, _, _, _, _, run => arg.keeps (run.of_says says_root)
  | .project arg _, _, _, _, _, _, run =>
      keeps_proper (fun _ => rfl) (fun _ _ => rfl) Projecting.proper arg.keeps run
  | .multiProject arg _, _, _, _, _, _, run =>
      keeps_proper (fun _ => rfl) (fun _ _ => rfl) MultiProjecting.proper arg.keeps run
  | .filter arg _, _, _, _, _, _, run =>
      keeps_proper (fun _ => rfl) (fun _ _ => rfl) (Filtering.proper env) arg.keeps run
  | .extend arg _, _, _, _, _, _, run =>
      keeps_proper (fun _ => rfl) (fun _ _ => rfl) (Extending.proper env) arg.keeps run
  | .reduced arg, _, _, _, _, _, run =>
      keeps_proper (fun _ => rfl) (fun _ _ => rfl) Reducing.proper arg.keeps run
  | .distinct arg, _, _, _, _, _, run =>
      keeps_underOne (fun _ => rfl) (fun _ _ => rfl) Deduplicating.dutiful trivial
        (by simp [MemberSet.new]) (fun _ => Deduplicating.honest) arg.keeps run
  | .order arg keys, _, scope, _, _, _, run =>
      keeps_underOne (fun _ => rfl) (fun _ _ => rfl) (Sorting.dutiful env) trivial
        (fun hShut => Sorting.not_shut_new keys scope env.spill hShut)
        (fun _ => Sorting.honest env) arg.keeps run
  | .slice arg _ limit, _, _, _, _, _, run => by
      rw [start] at run
      split at run
      next => exact (keeps_leaf startsLeaf_nothing run).mono fun _ => trivial
      next hLimit =>
        refine keeps_underOne (fun _ => rfl) (fun _ _ => rfl) Window.dutiful
          (Window.fit_ofSlice hLimit) (by simp [Window.ofSlice]) (by simp [sliceFree]) ?_ run
        exact fun run => (arg.keeps run).mono fun hFree => by simp [sliceFree] at hFree
  | .join left right, _, _, _, _, _, run => by
      obtain ⟨split⟩ := split_join run
      simp only [sliceFree, Bool.and_eq_true]
      exact split.keeps_merge rfl (.new Nat.one_pos) <| split.keepsArguments
        (fun run => (left.keeps run).mono And.left) (fun run => (right.keeps run).mono And.right)
  | .leftJoin left right condition, seed, _, _, _, _, run => by
      simp only [sliceFree, Bool.and_eq_true]
      have hInner : ∀ {seed scope steps t p},
          Run env (startLeftJoin env left right condition seed scope) steps t p →
            Keeps (left.sliceFree = true ∧ right.sliceFree = true) t p := by
        intro seed scope steps t p run
        obtain ⟨split⟩ := split_leftJoin run
        exact split.keeps_merge rfl (.new Nat.one_pos) <| split.keepsArguments
          (fun run => (left.keeps run).mono And.left) (fun run => (right.keeps run).mono And.right)
      rw [start] at run
      split at run
      next => exact hInner run
      next => exact keeps_proper (fun _ => rfl) (fun _ _ => rfl) Correcting.proper hInner run
  | .union left right, _, _, _, _, _, run => by
      obtain ⟨split⟩ := split_union run
      simp only [sliceFree, Bool.and_eq_true]
      exact split.keeps_merge rfl (.new Nat.two_pos) <| split.keepsArguments
        (fun run => (left.keeps run).mono And.left) (fun run => (right.keeps run).mono And.right)
  | .intersection left right, _, _, _, _, _, run => by
      obtain ⟨split⟩ := split_setFilter run
      simp only [sliceFree, Bool.and_eq_true]
      exact split.keeps_sift rfl <| split.keepsArguments
        (fun run => (right.keeps run).mono And.right) (fun run => (left.keeps run).mono And.left)
  | .difference left right, _, _, _, _, _, run => by
      obtain ⟨split⟩ := split_setFilter run
      simp only [sliceFree, Bool.and_eq_true]
      exact split.keeps_sift rfl <| split.keepsArguments
        (fun run => (right.keeps run).mono And.right) (fun run => (left.keeps run).mono And.left)

/-- The contract of a stream. In every run of every plan of which no row is refused, there is at most
one end, no row comes behind it, an unfailed run that is finished has ended, and without a slice in
the plan a failed run never ends. -/
theorem stream_contract {env : Environment} {plan : Plan} {seed : Solution} {scope : Scope}
    {steps : Nat} {t : Trace} {p : Process} (run : Run env (plan.start env seed scope) steps t p)
    (hRefused : t.refused = false) :
    t.ends ≤ 1 ∧
      (∀ before after row more, t = before ++ .finish :: after → Event.row row more ∉ after) ∧
      (t.failed = false → p.Finished → t.ends = 1) ∧
      (plan.sliceFree = true → t.failed = true → t.ends = 0) := by
  have hKeeps := plan.keeps run
  have hOnce := hKeeps.orderly.ends_le_one
  refine ⟨hOnce, ?_, fun hFailed hFinished => ?_, fun hFree hFailed => ?_⟩
  · rintro before after row more rfl
    exact hKeeps.orderly.no_row_after_end row more
  · have hOver := hKeeps.settled hFinished
    have hEnded : t.ended = true := by simpa [Trace.isOver, hRefused, hFailed] using hOver
    have hSome : t.ends ≠ 0 := by simp [Trace.ends_eq_zero_iff, hEnded]
    omega
  · rw [Trace.ends_eq_zero_iff, ← Bool.not_eq_true]
    exact fun hEnded => hKeeps.certified hFree ⟨hEnded, hFailed⟩

/-- A source of one row says it at once; a table next to it needs three steps for its call, its row
and its end. -/
theorem stream_contract_union :
    let env : Environment := .ofDataset .empty
    let plan : Plan := union (inline [] [.empty]) singleton
    ∃ (t : Trace) (p : Process), Run env (plan.start env .empty .root) 3 t p ∧
      t.refused = false ∧ t.failed = false ∧ p.Finished ∧ t.accepted = [.empty, .empty] ∧
      t.ends = 1 := by
  intro env plan
  have first : Run env (plan.start env .empty .root) 0 [.row .empty true] _ :=
    .start ⟨.starting 0, true, _, rfl, rfl, rfl⟩
  have called : Run env (plan.start env .empty .root) 1 [.row .empty true] _ :=
    first.step (show Process.Live _ [0] from ⟨_, rfl, rfl⟩) ⟨.starting 0, .starting 0, rfl, rfl⟩
  have given : Run env (plan.start env .empty .root) 2
      [.row .empty true, .row .empty true] _ :=
    called.step (show Process.Live _ [0] from ⟨_, rfl, rfl⟩) ⟨true, _, rfl, .starting 0, rfl, rfl⟩
  have run : Run env (plan.start env .empty .root) 3
      [.row .empty true, .row .empty true, .finish] _ :=
    given.step (show Process.Live _ [0] from ⟨_, rfl, rfl⟩) ⟨_, rfl, rfl, rfl⟩
  refine ⟨_, _, run, rfl, rfl, ?_, rfl, (stream_contract run rfl).2.2.1 rfl ?_⟩
  all_goals exact Process.finished_of_earliest _ rfl

end Plan

end SolutionFlow
