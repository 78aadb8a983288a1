import SolutionFlow.Proofs.Contract.Duties
import SolutionFlow.Proofs.Flow.Weave

/-! Intersections and differences. Until their first argument ends nothing but failures is heard of
them. Then they answer the rows of their only branch, and their stream ends with it. -/
namespace SolutionFlow

namespace Trace

/-- A failure can be told at any time. -/
theorem Abides.fail {heard said : Trace} (h : Abides heard said) (error : QueryError) :
    Abides heard (said ++ [.fail error]) where
  orderly := orderly_concat.mpr ⟨h.orderly, fun _ => rfl⟩
  closed hClosed := h.closed (by simpa using hClosed)
  settled _ := by simp [isOver]
  failed _ := by simp

end Trace

namespace SetFilter

theorem leftPipe_dutiful : leftPipe.Dutiful (fun _ => True) (fun s => s.right.closed = true) where
  answered {s e t s'} _ h := by
    rw [relays_leftPipe] at h
    cases e with
    | row row more =>
        obtain ⟨-, ⟨hClosed, rfl, rfl⟩ | ⟨-, rfl⟩ | ⟨-, rfl, rfl⟩⟩ := says_onLeftRow h
        · exact Event.answered_refused row hClosed
        · exact (Event.proper_forwarded ..).answered.of_false _
        · exact (Event.proper_dropped row).answered.of_false _
    | finish =>
        obtain ⟨rfl, -⟩ := h
        exact Event.proper_finish.answered.of_false _
    | fail error => exact h.1
  fit _ _ := trivial
  shut {s e t s'} h hShut := by
    rw [relays_leftPipe] at h
    cases e with
    | row row more =>
        obtain ⟨rfl, -⟩ := says_onLeftRow h
        exact .inl hShut
    | finish =>
        obtain ⟨rfl, -⟩ := h
        exact .inr rfl
    | fail error =>
        obtain ⟨rfl, -⟩ := h
        exact .inr rfl

/-- The operator ends, and fails, only with its branch. -/
theorem closes_with_branch {s s' : SetFilter} {e : Event} {t : Trace}
    (h : leftPipe.Relays s e t s') :
    (t.ended = true → e.isFinish = true) ∧ (t.failed = true → e.isFailure = true) := by
  rw [relays_leftPipe] at h
  cases e with
  | row row more =>
      obtain ⟨-, ⟨-, -, rfl⟩ | ⟨-, rfl⟩ | ⟨-, -, rfl⟩⟩ := says_onLeftRow h
      all_goals simp
  | finish =>
      obtain ⟨rfl, -⟩ := h
      simp
  | fail error =>
      obtain ⟨rfl, -⟩ := h
      simp

/-- An intersection or a difference has said `said` to the rows that it has collected and to those
that it has sifted. -/
structure Sifts (s : SetFilter) (lead : Trace) (branches : List Trace) (said : Trace) : Prop where
  length : branches.length = if lead.ended then 1 else 0
  abides : Trace.Abides branches.flatten said
  ended : said.ended = true → Trace.ended branches.flatten = true
  failed : lead.failed = true ∨ lead.refused = true → said.failed = true
  blamed : said.failed = true →
    lead.failed = true ∨ lead.refused = true ∨ Trace.failed branches.flatten = true
  shut : s.right.closed = true → said.isOver = true

namespace Sifts

variable {s s' : SetFilter} {lead said t : Trace} {branches : List Trace} {e : Event}

theorem new (hOpen : s.right.closed = false) : s.Sifts [] [] [] where
  length := rfl
  abides := ⟨Trace.orderly_nil, by simp, by simp [Trace.isOver], by simp⟩
  ended := by simp
  failed := by simp
  blamed := by simp
  shut := by simp [hOpen]

/-- A failure of what is collected, or in collecting it, is a failure of the operator. -/
theorem fail (h : s.Sifts lead branches said) {error : QueryError}
    (hEnded : Trace.ended (lead ++ [e]) = lead.ended)
    (hBlame : Trace.failed (lead ++ [e]) = true ∨ Trace.refused (lead ++ [e]) = true) :
    s'.Sifts (lead ++ [e]) branches (said ++ [.fail error]) where
  length := by rw [hEnded, h.length]
  abides := h.abides.fail error
  ended hEnded := h.ended (by simpa using hEnded)
  failed _ := by simp
  blamed _ := hBlame.imp_right .inl
  shut _ := by simp [Trace.isOver]

/-- As long as nothing fails, nothing is heard of the rows that are collected. -/
theorem collect (h : s.Sifts lead branches said) {row : Solution} {more : Bool}
    (hRefused : more = false → said.failed = true)
    (hShut : s'.right.closed = true → s.right.closed = true) :
    s'.Sifts (lead ++ [.row row more]) branches said where
  length := by simp [h.length]
  abides := h.abides
  ended := h.ended
  failed := by
    simp only [Trace.failed_append, Trace.refused_append, Bool.or_eq_true]
    rintro ((hFailed | hFailed) | (hBefore | hNow))
    · exact h.failed (.inl hFailed)
    · simp at hFailed
    · exact h.failed (.inr hBefore)
    · exact hRefused (by simpa using hNow)
  blamed hFailed := by
    simp only [Trace.failed_append, Trace.refused_append, Bool.or_eq_true]
    exact (h.blamed hFailed).imp .inl (Or.imp_left .inl)
  shut hNow := h.shut (hShut hNow)

/-- While there is no branch, what was collected is given up only with a failure. -/
theorem failed_of_shut (h : s.Sifts lead branches said) (hLead : lead.ended = false)
    (hShut : s.right.closed = true) : said.failed = true := by
  have hNone : branches.length = 0 := by simp [h.length, hLead]
  have hAbides := h.abides
  rw [List.length_eq_zero_iff.mp hNone] at hAbides
  have hOver := h.shut hShut
  simp only [Trace.isOver, Bool.or_eq_true] at hOver
  exact hOver.resolve_left fun hClosed => by simpa using hAbides.closed hClosed

/-- The end of what is collected opens the branch. -/
theorem openBranch (h : s.Sifts lead branches said) (hLead : lead.ended = false) :
    s.Sifts (lead ++ [.finish]) (branches ++ [[]]) said where
  length := by simp [h.length, hLead]
  abides := by simpa using h.abides
  ended := by simpa using h.ended
  failed := by simpa using h.failed
  blamed := by simpa using h.blamed
  shut := h.shut

/-- A row of the branch is sifted, its end is the end of the operator. -/
theorem sift {branch : Trace} (h : s.Sifts lead [branch] said)
    (hOrderly : Trace.Orderly (branch ++ [e])) (hRelays : leftPipe.Relays s e t s') :
    s'.Sifts lead [branch ++ [e]] (said ++ t) := by
  have hAbides : Trace.Abides branch said := by simpa using h.abides
  have next := Pipe.abides_concat hAbides hOrderly h.shut (leftPipe_dutiful.answered trivial hRelays)
  obtain ⟨hEnds, hFails⟩ := closes_with_branch hRelays
  have hEnded : said.ended = true → branch.ended = true := by simpa using h.ended
  have hBlamed : said.failed = true →
      lead.failed = true ∨ lead.refused = true ∨ branch.failed = true := by simpa using h.blamed
  refine ⟨h.length, by simpa using next, ?_, fun hLead => ?_, ?_, fun hShut => ?_⟩
  · simp only [Trace.ended_append, Bool.or_eq_true, List.flatten_cons, List.flatten_nil,
      List.append_nil, Trace.ended_cons, Trace.ended_nil, or_false, Bool.false_eq_true]
    exact Or.imp hEnded hEnds
  · rw [Trace.failed_append, h.failed hLead, Bool.true_or]
  · simp only [Trace.failed_append, Bool.or_eq_true, List.flatten_cons, List.flatten_nil,
      List.append_nil, Trace.failed_cons, Trace.failed_nil, or_false, Bool.false_eq_true]
    rintro (hBefore | hNow)
    · exact (hBlamed hBefore).imp_right (Or.imp_right .inl)
    · exact .inr (.inr (.inr (hFails hNow)))
  · rw [Trace.isOver_append, Bool.or_eq_true]
    exact (leftPipe_dutiful.shut hRelays hShut).imp h.shut id

/-- When both arguments are over, so is the operator. -/
theorem isOver (h : s.Sifts lead branches said) (hLead : lead.isOver = true)
    (hBranches : ∀ branch ∈ branches, branch.isOver = true) : said.isOver = true := by
  simp only [Trace.isOver, Bool.or_eq_true] at hLead
  rcases hLead with (hEnded | hRefused) | hFailed
  · have hOne : branches.length = 1 := by rw [h.length, if_pos hEnded]
    obtain ⟨branch, rfl⟩ := List.length_eq_one_iff.mp hOne
    exact h.abides.settled (by simpa using hBranches)
  · simp [Trace.isOver, h.failed (.inr hRefused)]
  · simp [Trace.isOver, h.failed (.inl hFailed)]

/-- The end of the operator can be trusted if those of both arguments can. -/
theorem certified (h : s.Sifts lead branches said) (hOrderly : lead.Orderly)
    (hLead : lead.Certified) (hBranches : ∀ branch ∈ branches, branch.Certified) :
    said.Certified := by
  rintro ⟨hEnded, hFailed⟩
  have hBranch := h.ended hEnded
  cases hDone : lead.ended with
  | false =>
      have hNone : branches.length = 0 := by simp [h.length, hDone]
      rw [List.length_eq_zero_iff.mp hNone] at hBranch
      simp at hBranch
  | true =>
      have hOne : branches.length = 1 := by rw [h.length, if_pos hDone]
      obtain ⟨branch, rfl⟩ := List.length_eq_one_iff.mp hOne
      have hFresh := hOrderly.not_refused hDone
      rcases h.blamed hFailed with hFails | hRefused | hFails
      · exact hLead ⟨hDone, hFails⟩
      · simp [hFresh] at hRefused
      · simp only [List.flatten_cons, List.flatten_nil, List.append_nil] at hBranch hFails
        exact hBranches branch (by simp) ⟨hBranch, hFails⟩

end Sifts

end SetFilter

namespace Operator.Weaves

variable {env : Environment} {start op : Operator} {strands : List Strand} {lead said : Trace}

/-- A weave of an intersection or a difference is one in which it sifts its branch. -/
theorem sifts {s₀ : SetFilter} (hFirst : s₀.right.closed = false)
    (weave : Weaves env (.setFilter s₀) [] op lead strands said) (hLead : lead.Orderly)
    (hStrands : ∀ strand ∈ strands, strand.trace.Orderly) :
    ∃ s, op = .setFilter s ∧ s.Sifts lead (strands.map (·.trace)) said := by
  induction weave with
  | nil => exact ⟨s₀, rfl, .new hFirst⟩
  | lead prior last ih =>
      rename_i op op' lead said t strands e seeds
      obtain ⟨s, rfl, hSifts⟩ := ih hLead.of_append
        fun strand hMem => hStrands strand (List.mem_append_left _ hMem)
      cases e with
      | row row more =>
          obtain ⟨s', hRow, rfl, rfl⟩ := relays_lead_setFilter_row.mp last
          refine ⟨s', rfl, ?_⟩
          simp only [List.map_nil, List.append_nil]
          obtain ⟨right, rfl, ⟨hClosed, rfl, rfl, rfl⟩ | ⟨hOpen, rfl, rfl, hRight, -⟩ |
            ⟨-, rfl, rfl, rfl⟩⟩ := SetFilter.says_onRightRow hRow
          · have hOpen : lead.ended = false := (hLead.still_open rfl).1
            rw [List.append_nil]
            exact hSifts.collect (fun _ => hSifts.failed_of_shut hOpen hClosed) id
          · rw [List.append_nil]
            exact hSifts.collect (by simp) (by simp [hRight])
          · exact hSifts.fail (by simp) (by simp)
      | finish =>
          obtain ⟨rfl, rfl, rfl⟩ := says_openBranch_done.mp (relays_lead_setFilter_finish.mp last)
          have hOpen : lead.ended = false := (hLead.still_open rfl).1
          exact ⟨s, rfl, by simpa [Strand.new] using hSifts.openBranch hOpen⟩
      | fail error =>
          obtain ⟨hFail, rfl⟩ := relays_lead_fail.mp last
          obtain ⟨s', rfl, hBranch⟩ := (Pipe.relays_react rfl).mp hFail
          obtain ⟨rfl, rfl⟩ := SetFilter.relays_leftPipe.mp hBranch
          exact ⟨_, rfl, by simpa using hSifts.fail (by simp) (by simp)⟩
  | branch prior hGet last ih =>
      obtain ⟨hOrderly, hBefore⟩ := Strand.orderly_of_set hGet hStrands
      obtain ⟨s, rfl, hSifts⟩ := ih hLead hBefore
      obtain ⟨before, after, rfl, hSet⟩ := exists_around hGet
      rw [hSet]
      obtain ⟨s', rfl, hBranch⟩ := (Pipe.relays_react rfl).mp last
      have hLength := hSifts.length
      obtain ⟨rfl, rfl⟩ : before = [] ∧ after = [] := by
        simp only [List.map_append, List.map_cons, List.length_append, List.length_cons,
          List.length_map] at hLength
        rw [← List.length_eq_zero_iff, ← List.length_eq_zero_iff]
        split at hLength <;> omega
      exact ⟨s', rfl, hSifts.sift hOrderly hBranch⟩

end Operator.Weaves

end SolutionFlow
