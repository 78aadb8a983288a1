import Mathlib.Algebra.Order.BigOperators.Group.List
import Mathlib.Algebra.Order.Group.Nat
import SolutionFlow.Proofs.Meaning.Yields

/-! What operators yield that start an argument on each row of another one. The number of branches is
that of the left rows, so that the steps of all branches are bounded together, and each branch adds
what it offers for its row. -/
namespace SolutionFlow

namespace Split

variable {env : Environment} {start : Operator} {opened : List Operator.Strand}
  {first : Emission Process} {spawn : Solution → Emission Process} {steps : Nat} {t : Trace}
  {p : Process} {c : Completion}

/-- A merge does not fail if none of its arguments does. -/
theorem unfailed (split : Split env start opened first spawn steps t p)
    (hStart : start.merging? = some (c, false)) (hOpen : c.stopped = false)
    (hFirst : ∀ strand ∈ opened, strand.trace = []) (hLead : split.lead.failed = false)
    (hThreads : ∀ thread ∈ split.threads, thread.strand.trace.failed = false) :
    t.failed = false := by
  obtain ⟨c', -, hFollows⟩ := split.weaves.follows hStart hOpen hFirst
  refine hFollows.unfailed ?_
  simp only [List.forall_mem_cons, List.forall_mem_map]
  exact ⟨hLead, hThreads⟩

/-- If no row of a merge is refused, none of its arguments is refused one, and only they can fail it. -/
theorem unrefused (split : Split env start opened first spawn steps t p)
    (hFollows : c.Follows (split.lead :: (split.threads.map (·.strand)).map (·.trace)) t)
    (hRefused : t.refused = false) :
    split.lead.refused = false ∧
      (∀ thread ∈ split.threads, thread.strand.trace.refused = false) ∧
      (split.lead.failed = false → (∀ thread ∈ split.threads, thread.strand.trace.failed = false) →
        t.failed = false) := by
  have hNone := hFollows.unrefused hRefused
  simp only [List.forall_mem_cons, List.forall_mem_map] at hNone
  refine ⟨hNone.1, hNone.2, fun hLead hThreads => hFollows.unfailed ?_⟩
  simp only [List.forall_mem_cons, List.forall_mem_map]
  exact ⟨hLead, hThreads⟩

section Seeds

variable (split : Split env start opened first spawn steps t p)
  (hSeeds : (split.threads.map (·.strand)).map (·.seed) = split.lead.accepted)
  {a : Bag} {offer : Operator.Strand → Bag} {g : Solution → Bag}

include hSeeds

theorem map_seeds {β : Type} (h : Solution → β) :
    split.threads.map (fun thread => h thread.strand.seed) = split.lead.accepted.map h := by
  rw [← hSeeds, List.map_map, List.map_map]
  rfl

/-- The branches are started on rows of the left argument. -/
theorem seed_mem (hLead : split.lead.rows ≤ a) :
    ∀ thread ∈ split.threads, thread.strand.seed ∈ a := by
  intro thread hMem
  have hAccepted : thread.strand.seed ∈ split.lead.accepted := by
    rw [← hSeeds, List.map_map]
    exact List.mem_map_of_mem hMem
  exact Multiset.mem_of_le hLead hAccepted

/-- The branches make as many steps as the rows allow. -/
theorem steps_le {bound : Nat} {bounds : Solution → Nat} (hFirst : split.leadSteps ≤ bound)
    (hLead : split.lead.rows ≤ a)
    (hSteps : ∀ thread ∈ split.threads, thread.steps ≤ bounds thread.strand.seed) :
    steps ≤ bound + (a.map bounds).sum := by
  have hThreads : (split.threads.map (·.steps)).sum ≤ (split.lead.accepted.map bounds).sum := by
    rw [← split.map_seeds hSeeds]
    exact List.sum_le_sum hSteps
  have hAll : (split.lead.accepted.map bounds).sum ≤ (a.map bounds).sum :=
    Bag.sum_map_le hLead bounds
  have hTotal := split.steps_eq
  omega

/-- The branches offer no more than the rows allow, and all of it if each offers all of its own. -/
theorem offers_le (hLead : split.lead.rows ≤ a)
    (hOffers : ∀ thread ∈ split.threads, offer thread.strand ≤ g thread.strand.seed) :
    (split.threads.map fun thread => offer thread.strand).sum ≤ a.bind g :=
  calc (split.threads.map fun thread => offer thread.strand).sum
    _ ≤ (split.threads.map fun thread => g thread.strand.seed).sum := List.sum_le_sum hOffers
    _ = split.lead.rows.bind g := by rw [split.map_seeds hSeeds, Trace.rows, Bag.bind_coe]
    _ ≤ a.bind g := Bag.bind_le_bind hLead g

theorem offers_eq (hLead : split.lead.rows = a)
    (hOffers : ∀ thread ∈ split.threads, offer thread.strand = g thread.strand.seed) :
    (split.threads.map fun thread => offer thread.strand).sum = a.bind g :=
  calc (split.threads.map fun thread => offer thread.strand).sum
    _ = (split.threads.map fun thread => g thread.strand.seed).sum := by
        rw [List.map_congr_left hOffers]
    _ = split.lead.rows.bind g := by rw [split.map_seeds hSeeds, Trace.rows, Bag.bind_coe]
    _ = a.bind g := by rw [hLead]

end Seeds

variable {d : Dataset} {left right : Plan} {seed : Solution} {scope : Scope} {op : Operator} {a : Bag}
  {bound : Nat} {bounds : Solution → Nat} {f g : Solution → Bag} {own : Bool}

/-- An operator that starts its right argument on each left row is on its way to what the branches offer
for their rows. -/
theorem toward
    (split : Split env op [] (left.start env seed scope) (fun row => right.start env row scope) steps t p)
    (hStore : env.dataset = d) (hLeft : left.YieldsWithin d scope bound seed a)
    (hRight : ∀ row ∈ a, right.YieldsWithin d scope (bounds row) row (f row))
    (hMerging : op.merging? = some (.new 1, own))
    (hFollows : c.Follows (split.lead :: (split.threads.map (·.strand)).map (·.trace)) t)
    (hRefused : t.refused = false) (offer : Operator.Strand → Bag)
    (hWeave : (∀ strand ∈ split.threads.map (·.strand), strand.trace.Orderly) →
      (split.threads.map (·.strand)).map (·.seed) = split.lead.accepted ∧
        t.rows = ((split.threads.map (·.strand)).map offer).sum)
    (hOffer : ∀ strand : Operator.Strand, strand.trace.rows ≤ f strand.seed →
      (strand.trace.ended = true → strand.trace.rows = f strand.seed) →
        offer strand ≤ g strand.seed ∧
          (strand.trace.ended = true → offer strand = g strand.seed)) :
    t.Toward (a.bind g) (bound + (a.map bounds).sum) steps := by
  have hOrderly : ∀ strand ∈ split.threads.map (·.strand), strand.trace.Orderly :=
    List.forall_mem_map.mpr fun thread hMem =>
      (right.keeps (split.threads_run thread hMem)).orderly
  obtain ⟨hSeeds, hRows⟩ := hWeave hOrderly
  obtain ⟨hLeadUnrefused, hUnrefused, hUnfailed⟩ := split.unrefused hFollows hRefused
  have hLead := hLeft hStore split.lead_runs hLeadUnrefused
  have hThread : ∀ thread ∈ split.threads,
      thread.strand.trace.Toward (f thread.strand.seed) (bounds thread.strand.seed) thread.steps :=
    fun thread hMem => hRight _ (split.seed_mem hSeeds hLead.rows_le thread hMem) hStore
      (split.threads_run thread hMem) (hUnrefused thread hMem)
  have hOffers := fun thread hMem =>
    hOffer thread.strand (hThread thread hMem).rows_le (hThread thread hMem).complete
  rw [List.map_map] at hRows
  refine ⟨?_, hUnfailed hLead.unfailed fun thread hMem => (hThread thread hMem).unfailed, ?_,
    fun hEnded => ?_⟩
  · exact split.steps_le hSeeds hLead.bounded hLead.rows_le fun thread hMem =>
      (hThread thread hMem).bounded
  · rw [hRows]
    exact split.offers_le hSeeds hLead.rows_le fun thread hMem => (hOffers thread hMem).1
  · have hNew : (Completion.new 1).Merges ([] :: ([] : List Operator.Strand).map (·.trace)) [] :=
      .new Nat.one_pos
    obtain ⟨hAll, -⟩ := split.weaves.completes hMerging hNew
      (left.keeps split.lead_runs).orderly hOrderly hRefused
    obtain ⟨hLeadEnded, hThreadsEnded⟩ := hAll.mp hEnded
    rw [List.forall_mem_map] at hThreadsEnded
    rw [hRows]
    exact split.offers_eq hSeeds (hLead.complete hLeadEnded) fun thread hMem =>
      (hOffers thread hMem).2 (hThreadsEnded thread hMem)

end Split

namespace Plan.Yields

variable {d : Dataset} {left right : Plan} {seed : Solution} {a b : Bag}

/-- A join yields, for each left row, what its right argument yields on it. -/
theorem join {f : Solution → Bag} (hLeft : left.Yields d seed a)
    (hRight : ∀ row ∈ a, right.Yields d row (f row)) :
    (Plan.join left right).Yields d seed (a.bind f) := by
  obtain ⟨bound, hBound⟩ := hLeft.within
  choose! bounds hBounds using fun row hRow => (hRight row hRow).within
  refine of_within (bound + (a.map bounds).sum) fun scope env steps t p hStore run hRefused => ?_
  obtain ⟨split⟩ := split_join run
  obtain ⟨c, -, hFollows⟩ := split.weaves.follows rfl rfl (by simp)
  exact split.toward hStore (hBound _) (fun row hRow => hBounds row hRow _) rfl hFollows hRefused
    (fun strand => strand.trace.rows) (fun _ => split.weaves.join_rows.2)
    fun strand hLe hEnded => ⟨hLe, hEnded⟩

/-- A union yields what both of its arguments yield. -/
theorem union (hLeft : left.Yields d seed a) (hRight : right.Yields d seed b) :
    (Plan.union left right).Yields d seed (a + b) := by
  obtain ⟨bound, hBound⟩ := hLeft
  obtain ⟨bound', hBound'⟩ := hRight
  refine ⟨bound + bound', fun {env scope steps t p} hStore run hRefused => ?_⟩
  obtain ⟨split⟩ := split_union run
  obtain ⟨other, hOther⟩ := split.threads_union rfl
  have hMem : other ∈ split.threads := by simp [hOther]
  obtain ⟨c, -, hFollows⟩ := split.weaves.follows rfl rfl (by simp [Operator.Strand.new])
  obtain ⟨hLeadUnrefused, hUnrefused, hUnfailed⟩ := split.unrefused hFollows hRefused
  have hLead := hBound hStore split.lead_runs hLeadUnrefused
  have hThread := hBound' hStore (split.threads_run other hMem) (hUnrefused other hMem)
  have hRows : t.rows = split.lead.rows + other.strand.trace.rows := by
    simpa [Operator.Strand.allRows, hOther] using split.weaves.union_rows.2
  refine ⟨?_, hUnfailed hLead.unfailed (by simp [hOther, hThread.unfailed]), ?_, fun hEnded => ?_⟩
  · have hTotal := split.steps_eq
    have hFirst := hLead.bounded
    have hSecond := hThread.bounded
    simp only [hOther, List.map_singleton, List.sum_singleton] at hTotal
    omega
  · rw [hRows]
    exact add_le_add hLead.rows_le hThread.rows_le
  · have hOrderly := (right.keeps (split.threads_run other hMem)).orderly
    obtain ⟨hAll, -⟩ := split.weaves.completes rfl (.new Nat.two_pos)
      (left.keeps split.lead_runs).orderly (by simpa [hOther] using hOrderly) hRefused
    obtain ⟨hLeadEnded, hThreadsEnded⟩ := hAll.mp hEnded
    have hOtherEnded : other.strand.trace.ended = true := by simpa [hOther] using hThreadsEnded
    rw [hRows, hLead.complete hLeadEnded, hThread.complete hOtherEnded]

end Plan.Yields

end SolutionFlow
