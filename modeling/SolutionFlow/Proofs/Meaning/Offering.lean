import SolutionFlow.Proofs.Contract.Completeness
import SolutionFlow.Proofs.Meaning.Bag

/-! What the branches of a left join offer. A branch hands over those of its rows that the condition lets
through, as they come, and when it has ended without any, the left row that it was started on. However
the branches take turns, the rows of the left join are what its branches offer together. -/
namespace SolutionFlow

namespace Expr

/-- An expression admits a row if it holds on it; that it is of the wrong type counts as no. -/
theorem run_admits (around : Surroundings) (row : Solution) (x : Expr) (clock : Clock) :
    ((x.admits around row).run clock).1 =
      (settle ((x.holds around row).run clock).1).map (·.getD false) := by
  rw [admits, ExceptT.run_map, ExceptT.run_mk]
  rfl

end Expr

namespace LeftJoining

variable {env : Environment} {condition : Option Expr} {visible : List String}

/-- At some time the condition can be found to hold on what it sees of a right row, or not to hold. It
does not hold either if it is of the wrong type there. -/
def Verdict (env : Environment) (condition : Option Expr) (visible : List String)
    (row : Solution) : Bool → Prop
  | true => ∀ x ∈ condition, ∃ clock,
      ((x.holds env.surroundings (row.restrict visible)).run clock).1 = .ok true
  | false => ∃ x ∈ condition, ∃ clock,
      ((x.holds env.surroundings (row.restrict visible)).run clock).1 = .ok false ∨
        ∃ e, ((x.holds env.surroundings (row.restrict visible)).run clock).1 = .error (.type e)

/-- What a left join finds about a row is a verdict of its condition. -/
theorem verdict_of_judges {s : LeftJoining} {row : Solution} {holds : Bool}
    (h : s.Judges env row (.ok holds)) : Verdict env s.condition s.visible row holds := by
  cases hCondition : s.condition with
  | none =>
      obtain rfl : true = holds := Except.ok.inj (eq_true_of_judges hCondition h).symm
      simp [Verdict]
  | some x =>
      obtain ⟨clock, hOutcome⟩ := h
      rw [admits, hCondition, Expr.run_admits] at hOutcome
      cases hHolds : ((x.holds env.surroundings (row.restrict s.visible)).run clock).1 with
      | ok value =>
          obtain rfl : value = holds := by simpa [hHolds, Expr.settle, Except.map] using hOutcome
          cases value with
          | true => simpa [Verdict] using ⟨clock, hHolds⟩
          | false => exact ⟨x, rfl, clock, .inl hHolds⟩
      | error e =>
          cases e with
          | type e =>
              obtain rfl : false = holds := by simpa [hHolds, Expr.settle, Except.map] using hOutcome
              exact ⟨x, rfl, clock, .inr ⟨e, hHolds⟩⟩
          | query e => simp [hHolds, Expr.settle, Except.map] at hOutcome

/-- So is every verdict found by one who asks at the right time. -/
theorem judges_of_verdict {s : LeftJoining} {row : Solution} {holds : Bool}
    (h : Verdict env s.condition s.visible row holds) : s.Judges env row (.ok holds) := by
  rw [Judges, admits]
  cases hCondition : s.condition with
  | none =>
      cases holds with
      | true => exact ⟨.starting 0, rfl⟩
      | false => simp [Verdict, hCondition] at h
  | some x =>
      simp only [Expr.run_admits]
      cases holds with
      | true =>
          obtain ⟨clock, hHolds⟩ := h x (by rw [hCondition]; rfl)
          exact ⟨clock, by rw [hHolds]; rfl⟩
      | false =>
          obtain ⟨y, hSome, clock, hHolds⟩ := h
          obtain rfl : x = y := Option.some.inj (hCondition.symm.trans hSome)
          obtain hHolds | ⟨e, hHolds⟩ := hHolds <;> exact ⟨clock, by rw [hHolds]; rfl⟩

/-- The condition comes to a verdict on each row, which is the same at all times. -/
def Steady (env : Environment) (condition : Option Expr) (visible : List String)
    (chosen : Solution → Bool) : Prop :=
  ∀ s : LeftJoining, s.condition = condition → s.visible = visible →
    ∀ row outcome, s.Judges env row outcome → outcome = .ok (chosen row)

/-- Without a condition all rows are let through. -/
theorem steady_none : Steady env none visible fun _ => true :=
  fun _ hCondition _ _ _ => eq_true_of_judges hCondition

theorem Steady.eq_of_verdict {s : LeftJoining} {chosen : Solution → Bool} {row : Solution} {holds : Bool}
    (hSteady : Steady env s.condition s.visible chosen)
    (h : Verdict env s.condition s.visible row holds) : holds = chosen row :=
  Except.ok.inj (hSteady s rfl rfl row _ (judges_of_verdict h))

theorem Steady.not_judges {s : LeftJoining} {chosen : Solution → Bool}
    (hSteady : Steady env s.condition s.visible chosen) (row : Solution) (error : QueryError) :
    ¬s.Judges env row (.error error) := by
  intro hJudged
  cases hSteady s rfl rfl row _ hJudged

/-- Of some right rows, one after another, these are the ones that the condition has let through. -/
inductive Admitted (env : Environment) (condition : Option Expr) (visible : List String) :
    List Solution → List Solution → Prop where
  | nil : Admitted env condition visible [] []
  | keep {rows kept : List Solution} {row : Solution} (prior : Admitted env condition visible rows kept)
      (last : Verdict env condition visible row true) :
      Admitted env condition visible (rows ++ [row]) (kept ++ [row])
  | drop {rows kept : List Solution} {row : Solution} (prior : Admitted env condition visible rows kept)
      (last : Verdict env condition visible row false) :
      Admitted env condition visible (rows ++ [row]) kept

/-- A condition that comes to the same verdict at all times keeps the rows that it holds on. -/
theorem Admitted.eq_filter {rows kept : List Solution} {f : Solution → Bool}
    (hSteady : ∀ row ∈ rows, ∀ holds, Verdict env condition visible row holds → holds = f row)
    (h : Admitted env condition visible rows kept) : kept = rows.filter f := by
  induction h with
  | nil => rfl
  | keep prior last ih =>
      rw [List.forall_mem_append, List.forall_mem_singleton] at hSteady
      rw [List.filter_append, ← ih hSteady.1, List.filter_singleton, ← hSteady.2 true last]
      rfl
  | drop prior last ih =>
      rw [List.forall_mem_append, List.forall_mem_singleton] at hSteady
      rw [List.filter_append, ← ih hSteady.1, List.filter_singleton, ← hSteady.2 false last]
      exact (List.append_nil _).symm

/-- A branch, and those of its rows that the condition has let through. -/
structure Branch extends Operator.Strand where
  kept : List Solution

namespace Branch

/-- The rows that were let through, or the left row if the branch has ended without any. -/
def offer (b : Branch) : Bag :=
  b.kept + if b.trace.ended = true ∧ b.kept = [] then {b.seed} else 0

/-- What a left join notes about a branch. -/
def note (b : Branch) : OptionalBranch := ⟨b.seed, b.kept.isEmpty⟩

/-- A branch after something has been said on it of which these rows were let through. -/
def say (b : Branch) (t : Trace) (more : List Solution) : Branch :=
  ⟨b.toStrand.say t, b.kept ++ more⟩

variable {b : Branch}

@[simp]
theorem accepted_say (t : Trace) (more : List Solution) :
    (b.say t more).trace.accepted = b.trace.accepted ++ t.accepted := Trace.accepted_append _ _

@[simp]
theorem kept_say (t : Trace) (more : List Solution) : (b.say t more).kept = b.kept ++ more := rfl

theorem offer_of_open (h : b.trace.ended = false) : b.offer = b.kept := by
  simp [offer, h]

/-- When a branch has ended, either its rows are offered or its left row is. -/
theorem offer_of_ended (h : b.trace.ended = true) :
    b.offer = if b.kept = [] then {b.seed} else (b.kept : Bag) := by
  by_cases hNone : b.kept = []
  · simp [offer, h, hNone]
  · simp [offer, hNone]

/-- As long as a branch does not end, it offers the rows that were let through. -/
theorem offer_say {t : Trace} (more : List Solution) (hOpen : b.trace.ended = false)
    (hSilent : t.ended = false) : (b.say t more).offer = b.offer + more := by
  have hStill : (b.say t more).trace.ended = false := by
    simp [say, Operator.Strand.say, hOpen, hSilent]
  rw [offer_of_open hStill, offer_of_open hOpen]
  rfl

/-- A branch that fails offers what it did. -/
theorem offer_say_fail (error : QueryError) : (b.say [.fail error] []).offer = b.offer := by
  simp [offer, say, Operator.Strand.say]

/-- With the end the left row is offered, if it is unmatched. -/
theorem offer_say_finish (hOpen : b.trace.ended = false) :
    (b.say [.finish] []).offer = b.offer + if b.note.unmatched then {b.seed} else 0 := by
  rw [offer_of_open hOpen]
  simp [offer, note, say, Operator.Strand.say]

theorem note_say_nil (t : Trace) : (b.say t []).note = b.note := by
  simp [note, say, Operator.Strand.say]

theorem note_say_row (t : Trace) (row : Solution) :
    (b.say t [row]).note = { b.note with unmatched := false } := by
  simp [note, say, Operator.Strand.say]

end Branch

/-- A left join has noted its branches, has one for each left row, has kept of their rows what its
condition has let through, and has said what they offer. -/
structure Offers (env : Environment) (condition : Option Expr) (visible : List String)
    (s : LeftJoining) (lead : Trace) (branches : List Branch) (said : Trace) : Prop where
  sameCondition : s.condition = condition
  sameVisible : s.visible = visible
  stopped : s.completion.stopped = said.refused
  noted : s.branches = branches.map Branch.note
  seeds : branches.map (·.seed) = lead.accepted
  admitted : ∀ b ∈ branches, Admitted env condition visible b.trace.accepted b.kept
  rows : said.rows = (branches.map Branch.offer).sum

namespace Offers

variable {s s' : LeftJoining} {lead said t : Trace} {branches before after : List Branch}
  {b : Branch} {c : Completion} {e : Event} {k : Nat}

/-- A left row opens a branch that offers nothing yet. -/
theorem begin (h : s.Offers env condition visible lead branches said) (row : Solution) :
    Offers env condition visible
      { s with completion := s.completion.begin, branches := s.branches ++ [⟨row, true⟩] }
      (lead ++ [.row row true]) (branches ++ [⟨.new row, []⟩]) said where
  sameCondition := h.sameCondition
  sameVisible := h.sameVisible
  stopped := h.stopped
  noted := by
    rw [h.noted, List.map_append]
    rfl
  seeds := by
    rw [List.map_append, h.seeds, Trace.accepted_append]
    rfl
  admitted := by
    simp only [List.forall_mem_append, List.forall_mem_singleton]
    exact ⟨h.admitted, .nil⟩
  rows := by
    rw [h.rows, List.map_append, List.sum_append]
    exact (add_zero _).symm

/-- Nothing else that the left argument says makes a difference. -/
theorem hear_lead (h : s.Offers env condition visible lead branches said)
    (hEvent : Trace.accepted [e] = []) (hSilent : t.rows = 0) (hRefused : t.refused = false)
    (hStopped : c.stopped = s.completion.stopped) :
    Offers env condition visible { s with completion := c } (lead ++ [e]) branches (said ++ t) where
  sameCondition := h.sameCondition
  sameVisible := h.sameVisible
  stopped := by rw [Trace.refused_append, hRefused, Bool.or_false, ← h.stopped, ← hStopped]
  noted := h.noted
  seeds := by rw [h.seeds, Trace.accepted_append, hEvent, List.append_nil]
  admitted := h.admitted
  rows := by rw [Trace.rows_append, hSilent, add_zero, h.rows]

/-- What a branch says is what it offers more. -/
theorem replace {b' : Branch} (h : s.Offers env condition visible lead (before ++ b :: after) said)
    (hCondition : s'.condition = s.condition) (hVisible : s'.visible = s.visible)
    (hStopped : s'.completion.stopped = Trace.refused (said ++ t))
    (hBranches : s'.branches = (before ++ b' :: after).map Branch.note) (hSeed : b'.seed = b.seed)
    (hAdmitted : Admitted env condition visible b'.trace.accepted b'.kept)
    (hOffer : b'.offer = b.offer + t.rows) :
    s'.Offers env condition visible lead (before ++ b' :: after) (said ++ t) where
  sameCondition := hCondition.trans h.sameCondition
  sameVisible := hVisible.trans h.sameVisible
  stopped := hStopped
  noted := hBranches
  seeds := by
    rw [← h.seeds]
    simp [hSeed]
  admitted := by
    have hAll := h.admitted
    simp only [List.forall_mem_append, List.forall_mem_cons] at hAll ⊢
    exact ⟨hAll.1, hAdmitted, hAll.2.2⟩
  rows := by
    rw [Trace.rows_append, h.rows]
    simp only [List.map_append, List.map_cons, List.sum_append, List.sum_cons, hOffer]
    abel

/-- A branch may be noted as it was. -/
theorem branches_eq {b' : Branch} (h : s.Offers env condition visible lead (before ++ b :: after) said)
    (hNote : b'.note = b.note) : s.branches = (before ++ b' :: after).map Branch.note := by
  rw [h.noted]
  simp [hNote]

/-- Whatever a branch says, the left join goes on to say what its branches offer. -/
theorem hear (h : s.Offers env condition visible lead branches said)
    (hGet : branches[k]? = some b) (hOrderly : Trace.Orderly (b.trace ++ [e]))
    (last : (branchPipe env k).Relays s e t s') (hRefused : Trace.refused (said ++ t) = false) :
    ∃ more, s'.Offers env condition visible lead (branches.set k (b.say [e] more)) (said ++ t) := by
  rw [Trace.refused_append, Bool.or_eq_false_iff] at hRefused
  have hGoing : s.completion.stopped = false := h.stopped.trans hRefused.1
  have hStill : Trace.refused (said ++ t) = false := by simp [hRefused]
  have hNoted : s.branches[k]? = some b.note := by
    rw [h.noted, List.getElem?_map, hGet]
    rfl
  have hVerdict : ∀ {row holds}, s.Judges env row (.ok holds) →
      Verdict env condition visible row holds := fun hJudged =>
    h.sameVisible ▸ h.sameCondition ▸ verdict_of_judges hJudged
  have hAdmitted := h.admitted b (List.mem_of_getElem? hGet)
  obtain ⟨before, after, rfl, hAround⟩ := exists_around hGet
  simp only [hAround]
  cases e with
  | fail error =>
      obtain ⟨rfl, rfl⟩ := relays_fail.mp last
      refine ⟨[], h.replace rfl rfl (hGoing.trans hStill.symm) (h.branches_eq (Branch.note_say_nil _))
        rfl (by simpa using hAdmitted) ?_⟩
      rw [Branch.offer_say_fail]
      exact (add_zero _).symm
  | row row more =>
      obtain ⟨hOpen, -⟩ := hOrderly.still_open rfl
      obtain ⟨hStopped, -⟩ | ⟨-, hJudged, rfl, rfl⟩ | ⟨-, hJudged, rfl, rfl, rfl⟩ |
        ⟨-, error, -, rfl, rfl, rfl⟩ := says_onBranchRow last
      · simp [hGoing] at hStopped
      · obtain rfl : more = true := by simpa using hRefused.2
        refine ⟨[row], h.replace rfl rfl hStill.symm ?_ rfl ?_ (Branch.offer_say [row] hOpen rfl)⟩
        · rw [← hAround, List.map_set, Branch.note_say_row]
          exact (modify_eq_set hNoted _).trans (by rw [h.noted])
        · simpa using hAdmitted.keep (hVerdict hJudged)
      · refine ⟨[], h.replace rfl rfl (hGoing.trans hStill.symm)
          (h.branches_eq (Branch.note_say_nil _)) rfl ?_ (Branch.offer_say [] hOpen rfl)⟩
        simpa using hAdmitted.drop (hVerdict hJudged)
      · refine ⟨[], h.replace rfl rfl (hGoing.trans hStill.symm)
          (h.branches_eq (Branch.note_say_nil _)) rfl ?_ (Branch.offer_say [] hOpen rfl)⟩
        simpa using hAdmitted
  | finish =>
      obtain ⟨hOpen, -⟩ := hOrderly.still_open rfl
      have hKept : Admitted env condition visible (b.say [.finish] []).trace.accepted
          (b.say [.finish] []).kept := by simpa using hAdmitted
      have hEnd : ∀ {c c' : Completion} {u : Trace}, c.finish.Says u c' →
          u.rows = 0 ∧ u.refused = false ∧ c'.stopped = c.stopped := by
        intro c c' u hFinish
        obtain ⟨rfl, rfl⟩ := Completion.says_finish.mp hFinish
        exact ⟨Operator.rows_of_completion_relays (e := .finish) hFinish, by split <;> rfl, rfl⟩
      obtain ⟨left, t₁, more, c₁, t₂, c₂, hLeft, hForward, hFinish, rfl, rfl⟩ |
        ⟨hMatched, c', hFinish, rfl⟩ := says_onBranchFinish last
      · obtain ⟨hStopped, -⟩ | ⟨-, rfl, rfl⟩ := Completion.says_forward.mp hForward
        · simp [hGoing] at hStopped
        · have hNote : b.note = ⟨left, true⟩ := Option.some.inj (hNoted.symm.trans hLeft)
          have hSeed : b.seed = left := congrArg OptionalBranch.left hNote
          obtain ⟨hSilent, -, hStopped⟩ := hEnd hFinish
          obtain rfl : more = true := by
            rw [Trace.refused_append, Bool.or_eq_false_iff] at hRefused
            simpa using hRefused.2.1
          refine ⟨[], h.replace rfl rfl (hStopped.trans hStill.symm)
            (h.branches_eq (Branch.note_say_nil _)) rfl hKept ?_⟩
          rw [Branch.offer_say_finish hOpen, hNote, hSeed, if_pos rfl, Trace.rows_append, hSilent]
          rfl
      · have hNote : b.note.unmatched = false := by
          rw [← Bool.not_eq_true]
          intro hUnmatched
          refine hMatched b.seed (hNoted.trans (congrArg some ?_))
          exact congrArg (OptionalBranch.mk b.seed) hUnmatched
        obtain ⟨hSilent, -, hStopped⟩ := hEnd hFinish
        refine ⟨[], h.replace rfl rfl ((hStopped.trans hGoing).trans hStill.symm)
          (h.branches_eq (Branch.note_say_nil _)) rfl hKept ?_⟩
        rw [Branch.offer_say_finish hOpen, hNote, hSilent]
        rfl

end Offers

end LeftJoining

namespace Operator

/-- The chosen rows of a branch, and its left row if it has ended without any. -/
def Strand.offer (chosen : Solution → Bool) (strand : Strand) : Bag :=
  strand.trace.rows.filter (chosen · = true) +
    if strand.trace.ended = true ∧ strand.trace.rows.filter (chosen · = true) = 0 then {strand.seed}
    else 0

/-- A branch that is on its way to some rows will offer the chosen ones, or else its left row. -/
theorem Strand.offer_toward {chosen : Solution → Bool} {rows : Bag} {strand : Strand}
    (hLe : strand.trace.rows ≤ rows) (hEnded : strand.trace.ended = true → strand.trace.rows = rows) :
    strand.offer chosen ≤ Bag.orElse (rows.filter (chosen · = true)) strand.seed ∧
      (strand.trace.ended = true →
        strand.offer chosen = Bag.orElse (rows.filter (chosen · = true)) strand.seed) := by
  by_cases hDone : strand.trace.ended = true
  · have hOffer : strand.offer chosen = Bag.orElse (rows.filter (chosen · = true)) strand.seed := by
      rw [offer, hEnded hDone, Bag.orElse]
      by_cases hNone : rows.filter (chosen · = true) = 0 <;> simp [hDone, hNone]
    exact ⟨hOffer.le, fun _ => hOffer⟩
  · refine ⟨?_, fun hNow => absurd hNow hDone⟩
    have hFew : strand.trace.rows.filter (chosen · = true) ≤ rows.filter (chosen · = true) :=
      Multiset.filter_le_filter _ hLe
    rw [offer, if_neg (fun hNow => hDone hNow.1), add_zero, Bag.orElse]
    split
    next hNone => exact (hFew.trans hNone.le).trans (Multiset.zero_le _)
    next => exact hFew

namespace Weaves

open LeftJoining

variable {env : Environment} {s₀ : LeftJoining} {op : Operator} {lead said : Trace}
  {strands : List Strand}

/-- In every weave of a left join of which no row is refused, it says what its branches offer. -/
theorem offers (hNone : s₀.branches = []) (hGoing : s₀.completion.stopped = false)
    (weave : Weaves env (.leftJoin s₀) [] op lead strands said)
    (hStrands : ∀ strand ∈ strands, strand.trace.Orderly) (hRefused : said.refused = false) :
    ∃ s branches, op = .leftJoin s ∧ branches.map Branch.toStrand = strands ∧
      s.Offers env s₀.condition s₀.visible lead branches said := by
  induction weave with
  | nil => exact ⟨s₀, [], rfl, rfl, rfl, rfl, hGoing, by simp [hNone], rfl, by simp, rfl⟩
  | lead prior last ih =>
      rw [Trace.refused_append, Bool.or_eq_false_iff] at hRefused
      obtain ⟨s, branches, rfl, rfl, hOffers⟩ := ih
        (fun strand hMem => hStrands strand (List.mem_append_left _ hMem)) hRefused.1
      have hStopped : s.completion.stopped = false := hOffers.stopped.trans hRefused.1
      rename_i e seeds
      cases e with
      | row row more =>
          obtain ⟨hNow, -⟩ | ⟨-, rfl, hOpened⟩ := relays_lead_leftJoin_row.mp last
          · simp [hStopped] at hNow
          · obtain ⟨rfl, rfl, rfl⟩ := says_openBranch_done.mp hOpened
            exact ⟨_, branches ++ [⟨.new row, []⟩], rfl, by simp,
              by simpa using hOffers.begin row⟩
      | finish =>
          obtain ⟨c, hFinish, rfl, rfl⟩ := relays_lead_leftJoin_finish.mp last
          have hSilent := rows_of_completion_relays (e := .finish) hFinish
          obtain ⟨rfl, rfl⟩ := Completion.says_finish.mp hFinish
          exact ⟨_, branches, rfl, by simp, hOffers.hear_lead rfl hSilent hRefused.2 rfl⟩
      | fail error =>
          obtain ⟨hFail, rfl⟩ := relays_lead_fail.mp last
          obtain ⟨s', rfl, hBranch⟩ := (Pipe.relays_react rfl).mp hFail
          obtain ⟨rfl, rfl⟩ := LeftJoining.relays_fail.mp hBranch
          exact ⟨_, branches, rfl, by simp,
            hOffers.hear_lead (c := s'.completion) rfl rfl rfl rfl⟩
  | branch prior hGet last ih =>
      have hSaid := hRefused
      rw [Trace.refused_append, Bool.or_eq_false_iff] at hSaid
      obtain ⟨hOrderly, hBefore⟩ := Strand.orderly_of_set hGet hStrands
      obtain ⟨s, branches, rfl, rfl, hOffers⟩ := ih hBefore hSaid.1
      obtain ⟨b, hBranch, rfl⟩ := by simpa using hGet
      obtain ⟨s', rfl, hRelays⟩ := (Pipe.relays_react rfl).mp last
      obtain ⟨more, hNext⟩ := hOffers.hear hBranch hOrderly hRelays hRefused
      exact ⟨s', _, rfl, by rw [List.map_set]; rfl, hNext⟩

/-- Under a condition that is steady, the branches offer what it chooses of their rows. -/
theorem offers_chosen {chosen : Solution → Bool} (hSteady : Steady env s₀.condition s₀.visible chosen)
    (hNone : s₀.branches = []) (hGoing : s₀.completion.stopped = false)
    (weave : Weaves env (.leftJoin s₀) [] op lead strands said)
    (hStrands : ∀ strand ∈ strands, strand.trace.Orderly) (hRefused : said.refused = false) :
    strands.map (·.seed) = lead.accepted ∧ said.rows = (strands.map (Strand.offer chosen)).sum := by
  obtain ⟨s, branches, -, rfl, hOffers⟩ := weave.offers hNone hGoing hStrands hRefused
  refine ⟨by rw [List.map_map]; exact hOffers.seeds, ?_⟩
  rw [hOffers.rows, List.map_map]
  refine congrArg List.sum (List.map_congr_left fun b hMem => ?_)
  have hKept : b.kept = b.trace.accepted.filter chosen :=
    (hOffers.admitted b hMem).eq_filter fun row _ holds => hSteady.eq_of_verdict
  simp [Branch.offer, Strand.offer, hKept, Trace.rows]

end Weaves

end Operator

end SolutionFlow
