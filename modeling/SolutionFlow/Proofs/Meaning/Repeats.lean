import SolutionFlow.Proofs.Meaning.Capping
import SolutionFlow.Proofs.Meaning.Ordering
import SolutionFlow.Proofs.Flow.Pouring

/-! Repeats of poured rows. A filter of duplicates pours out the first occurrences, a filter of immediate
repeats one row for each run of equal ones; so both can be put above each other like functions of lists.
Whether the set of rows is in memory or in a file makes no difference, as long as there is a place for it. -/
namespace SolutionFlow

open Emission (pour)

namespace Emission

variable {α : Type} {e : Emission α} {rows : List Solution}

/-- An emission pours out some rows and does nothing else. What it leaves depends on the replies. -/
def Pours (e : Emission α) (rows : List Solution) : Prop := ∃ leave : List Bool → α, e = leave <$> pour rows

/-- A consumer that never refuses a row is told exactly these rows, one after another, and then one end. -/
def Feeds (e : Emission α) (rows : List Solution) : Prop :=
  ∀ {σ : Type} (c : Consumer σ) (clock : Clock) (x : σ),
    (∀ given row, (c.row (c.receive given x) row).1 = true) →
      (e.deliver c (clock, x)).2 = (clock, c.finish (c.receive rows x))

theorem deliver_map {β σ : Type} (f : α → β) (e : Emission α) (c : Consumer σ) (s : Clock × σ) :
    (f <$> e).deliver c s = (f (e.deliver c s).1, (e.deliver c s).2) := by
  rw [← bind_pure_comp]
  exact e.deliver_bind c (fun value => pure (f value)) s

theorem feeds_pour (rows : List Solution) : (pour rows).Feeds rows := by
  intro σ c clock x hAccepts
  induction rows generalizing x with
  | nil => rfl
  | cons row rest ih =>
      have hStill : ∀ given other, (c.row (c.receive given (c.row x row).2) other).1 = true :=
        fun given => hAccepts (row :: given)
      change ((pour rest >>= fun replies => pure ((c.row x row).1 :: replies)).deliver c
        (clock, (c.row x row).2)).2 = _
      rw [bind_pure_comp, deliver_map]
      exact ih _ hStill

theorem Pours.feeds (h : e.Pours rows) : e.Feeds rows := by
  obtain ⟨leave, rfl⟩ := h
  intro σ c clock x hAccepts
  rw [deliver_map]
  exact feeds_pour rows c clock x hAccepts

end Emission

section

variable {f : List Solution → List Solution} {keeps : List Solution → Solution → Prop} {σ : Type}
  {p : Pipe σ} {Knows : List Solution → σ → Prop} {all : List Solution}

/-- An operator that hands on the rows to keep and nothing else, whatever the replies, makes poured rows of
poured rows. -/
theorem Selects.through_pour (h : Selects f keeps)
    (hKeep : ∀ {given row rest s}, all = given ++ row :: rest → Knows given s → keeps given row →
      ∃ next, Knows (given ++ [row]) next ∧
        p.onRow s row = (fun more => (more, next)) <$> Emission.push row)
    (hDrop : ∀ {given row rest s}, all = given ++ row :: rest → Knows given s → ¬keeps given row →
      ∃ next, Knows (given ++ [row]) next ∧ p.onRow s row = pure (true, next))
    (hFinish : ∀ s, ∃ next, p.onFinish s = (fun _ => next) <$> Emission.finished)
    {given rows : List Solution} {s : σ} (hAll : all = given ++ rows) (hKnows : Knows given s) :
    ∃ more leave, f all = f given ++ more ∧ p.through s (pour rows) = leave <$> pour more := by
  induction rows generalizing given s with
  | nil =>
      obtain ⟨next, hEnd⟩ := hFinish s
      rw [List.append_nil] at hAll
      refine ⟨[], fun replies => (replies, next), by rw [hAll, List.append_nil], ?_⟩
      rw [Pipe.through_pour_nil, hEnd]
      rfl
  | cons row rest ih =>
      have hSplit : all = (given ++ [row]) ++ rest := by simp [hAll]
      by_cases hKeeps : keeps given row
      · obtain ⟨next, hNext, hRow⟩ := hKeep hAll hKnows hKeeps
        obtain ⟨more, leave, hMore, hThrough⟩ := ih hSplit hNext
        refine ⟨row :: more, fun replies =>
          (replies.take 1 ++ (leave replies.tail).1, (leave replies.tail).2),
          by rw [hMore, h.keep hKeeps, List.append_assoc, List.singleton_append], ?_⟩
        rw [Pipe.through_pour_cons, hRow, bind_map_left]
        simp only [hThrough, pour, Functor.map_map, map_bind, bind_pure_comp]
        rfl
      · obtain ⟨next, hNext, hRow⟩ := hDrop hAll hKnows hKeeps
        obtain ⟨more, leave, hMore, hThrough⟩ := ih hSplit hNext
        refine ⟨more, fun replies => (true :: (leave replies).1, (leave replies).2),
          by rw [hMore, h.drop hKeeps], ?_⟩
        rw [Pipe.through_pour_cons, hRow, pure_bind, hThrough, Functor.map_map]

end

namespace Deduplicating

variable {spill : SpillOptions} {given all : List Solution} {row : Solution} {s : Deduplicating}

/-- There is a place for the different ones of some rows. -/
def HasPlace (spill : SpillOptions) (rows : List Solution) : Prop :=
  spill.canWrite = true ∨ rows.eraseDups.length ≤ spill.threshold

/-- The operator has each of these rows once in its set. -/
structure Notes (spill : SpillOptions) (given : List Solution) (s : Deduplicating) : Prop where
  isOpen : s.seen.closed = false
  options_eq : s.seen.options = spill
  perm : s.seen.members.Perm given.eraseDups

theorem notes_new (spill : SpillOptions) : Notes spill [] ⟨.new spill⟩ := ⟨rfl, rfl, .refl _⟩

theorem Notes.mem_iff (h : Notes spill given s) (row : Solution) : row ∈ s.seen.members ↔ row ∈ given := by
  rw [h.perm.mem_iff, List.mem_eraseDups]

/-- A row that is new is noted and handed on. -/
theorem Notes.keep (h : Notes spill given s) {rest : List Solution} (hAll : all = given ++ row :: rest)
    (hPlace : HasPlace spill all) (hNew : row ∉ given) :
    ∃ next, Notes spill (given ++ [row]) next ∧
      pipe.onRow s row = (fun more => (more, next)) <$> Emission.push row := by
  have hMore : (given ++ [row]).eraseDups = given.eraseDups ++ [row] := selects.keep hNew
  have hRoom : s.seen.options.canWrite = true ∨ s.seen.members.length < s.seen.options.threshold := by
    rw [h.options_eq]
    refine hPlace.imp_right fun hFew => ?_
    obtain ⟨others, hOthers⟩ := selects.exists_append (given ++ [row]) rest
    rw [List.append_assoc, List.singleton_append, ← hAll] at hOthers
    rw [h.perm.length_eq]
    rw [hOthers, hMore] at hFew
    simp only [List.length_append, List.length_singleton] at hFew
    omega
  obtain ⟨seen, hAdd, hOpen, hOptions, hPerm⟩ :=
    MemberSet.exists_add_new h.isOpen (mt (h.mem_iff row).mp hNew) hRoom
  refine ⟨⟨seen⟩, ⟨hOpen, hOptions.trans h.options_eq, ?_⟩, ?_⟩
  · rw [hMore]
    exact (hPerm.trans (h.perm.cons row)).trans (List.perm_append_singleton row _).symm
  · simp only [pipe, onRow, hAdd, bind_pure_comp]

/-- A row that has come before is dropped. -/
theorem Notes.drop (h : Notes spill given s) (hOld : row ∈ given) :
    ∃ next, Notes spill (given ++ [row]) next ∧ pipe.onRow s row = pure (true, next) := by
  have hAdd : s.seen.add row = (.ok false, s.seen) := by
    rw [MemberSet.add_eq, if_neg (ne_true_of_eq_false h.isOpen), if_pos ((h.mem_iff row).mpr hOld)]
  refine ⟨s, ⟨h.isOpen, h.options_eq, ?_⟩, by simp only [pipe, onRow, hAdd]⟩
  rw [selects.drop (not_not.mpr hOld)]
  exact h.perm

/-- Of poured rows, a filter of duplicates makes the first occurrences. -/
theorem through_pour (hPlace : HasPlace spill all) :
    ∃ leave, pipe.through ⟨.new spill⟩ (pour all) = leave <$> pour all.eraseDups := by
  obtain ⟨more, leave, hMore, hThrough⟩ := selects.through_pour
    (fun hAll hNotes hNew => hNotes.keep hAll hPlace hNew)
    (fun _ hNotes hOld => hNotes.drop (not_not.mp hOld))
    (fun s => ⟨⟨s.seen.close⟩, bind_pure_comp _ _⟩) (List.nil_append all).symm (notes_new spill)
  obtain rfl : all.eraseDups = more := hMore
  exact ⟨leave, hThrough⟩

end Deduplicating

namespace Reducing

variable {given : List Solution} {row : Solution} {s : Reducing}

/-- The operator knows the last of these rows. -/
def Follows (given : List Solution) (s : Reducing) : Prop := s.previous = given.getLast?

theorem Follows.keep (h : Follows given s) (hOther : given.getLast? ≠ some row) :
    ∃ next, Follows (given ++ [row]) next ∧
      pipe.onRow s row = (fun more => (more, next)) <$> Emission.push row := by
  rw [← h] at hOther
  refine ⟨⟨some row⟩, List.getLast?_concat.symm, ?_⟩
  simp only [pipe, Pipe.ofRow, if_neg hOther, bind_pure_comp]

theorem Follows.drop (h : Follows given s) (hSame : given.getLast? = some row) :
    ∃ next, Follows (given ++ [row]) next ∧ pipe.onRow s row = pure (true, next) := by
  have hLast : s.previous = some row := Eq.trans h hSame
  exact ⟨s, hLast.trans List.getLast?_concat.symm, if_pos hLast⟩

/-- Of poured rows, a filter of immediate repeats makes one for each run of equal ones. -/
theorem through_pour (all : List Solution) :
    ∃ leave, pipe.through ⟨none⟩ (pour all) = leave <$> pour (all.destutter (· ≠ ·)) := by
  have hFirst : Follows [] ⟨none⟩ := rfl
  obtain ⟨more, leave, hMore, hThrough⟩ := selects.through_pour
    (fun _ hFollows hOther => hFollows.keep hOther)
    (fun _ hFollows hSame => hFollows.drop (not_not.mp hSame))
    (fun s => ⟨s, bind_pure_comp _ _⟩) (List.nil_append all).symm hFirst
  obtain rfl : all.destutter (· ≠ ·) = more := hMore
  exact ⟨leave, hThrough⟩

theorem mem_destutter (rows : List Solution) (row : Solution) :
    row ∈ rows.destutter (· ≠ ·) ↔ row ∈ rows := by
  induction rows using List.reverseRecOn with
  | nil => rfl
  | append_singleton rows last ih =>
      rw [destutter_concat]
      split
      next hSame =>
        have hLast : last ∈ rows := List.mem_of_getLast? hSame
        rw [ih, List.mem_append, List.mem_singleton]
        exact ⟨.inl, fun hMem => hMem.elim id fun hEq => hEq ▸ hLast⟩
      next => rw [List.mem_append, List.mem_append, ih]

/-- Where immediate repeats have been dropped, the first occurrences are what they were. -/
theorem eraseDups_destutter (rows : List Solution) :
    (rows.destutter (· ≠ ·)).eraseDups = rows.eraseDups := by
  induction rows using List.reverseRecOn with
  | nil => rfl
  | append_singleton rows last ih =>
      rw [destutter_concat]
      split
      next hSame => rw [ih, eraseDups_concat, if_pos (List.mem_of_getLast? hSame)]
      next => simp only [eraseDups_concat, ih, mem_destutter]

end Reducing

namespace Process

variable {env : Environment} {arg : Emission Process} {rows out : List Solution}

/-- What an operator makes of poured rows is what it makes of an argument that pours them out. -/
theorem pours_underOne {σ : Type} {p : Pipe σ} {wrap : σ → Operator} {first : σ}
    (hReact : ∀ s, (wrap s).react env 0 = p.react s wrap) (hOpens : ∀ s, (wrap s).opens = false)
    (hMakes : ∃ leave, p.through first (pour rows) = leave <$> pour out) (h : arg.Pours rows) :
    (underOne env (wrap first) arg).Pours out := by
  obtain ⟨leave, rfl⟩ := h
  obtain ⟨make, hMake⟩ := hMakes
  exact ⟨_, by rw [underOne_wrap hReact hOpens, Pipe.through_map, hMake, Functor.map_map, Functor.map_map]⟩

theorem pours_distinct (hPlace : Deduplicating.HasPlace env.spill rows) (h : arg.Pours rows) :
    (underOne env (.distinct ⟨.new env.spill⟩) arg).Pours rows.eraseDups :=
  pours_underOne (fun _ => rfl) (fun _ => rfl) (Deduplicating.through_pour hPlace) h

theorem pours_reduced (h : arg.Pours rows) :
    (underOne env (.reduced ⟨none⟩) arg).Pours (rows.destutter (· ≠ ·)) :=
  pours_underOne (fun _ => rfl) (fun _ => rfl) (Reducing.through_pour rows) h

/-- Rows are pushed one after another, and then the end, into filters whose consumer never refuses a row. A
filter of duplicates hands on the first occurrence of each row in order, whatever number of rows stays in
memory, a filter of immediate repeats one row for each run of equal ones, and each sends one end behind
them. Twice the same filter is as good as once; both of them, in either order, hand on what the filter of
duplicates does alone. -/
theorem distinct_reduced_exact (env : Environment) {rows : List Solution}
    (hPlace : Deduplicating.HasPlace env.spill rows) (leave : List Bool → Process) :
    let source := leave <$> pour rows
    let distinct := underOne env (.distinct ⟨.new env.spill⟩)
    let reduced := underOne env (.reduced ⟨none⟩)
    (distinct source).Feeds rows.eraseDups ∧
    (reduced source).Feeds (rows.destutter (· ≠ ·)) ∧
    (distinct (distinct source)).Feeds rows.eraseDups ∧
    (reduced (reduced source)).Feeds (rows.destutter (· ≠ ·)) ∧
    (distinct (reduced source)).Feeds rows.eraseDups ∧
    (reduced (distinct source)).Feeds rows.eraseDups := by
  intro source distinct reduced
  have hSource : source.Pours rows := ⟨leave, rfl⟩
  have hFirsts : (distinct source).Pours rows.eraseDups := pours_distinct hPlace hSource
  have hRuns : (reduced source).Pours (rows.destutter (· ≠ ·)) := pours_reduced hSource
  have hTwice : rows.eraseDups.eraseDups = rows.eraseDups := eraseDups_of_nodup (nodup_eraseDups rows)
  have hApart : rows.eraseDups.destutter (· ≠ ·) = rows.eraseDups :=
    Modifier.apply_of_nodup (m := .reduced) rfl (nodup_eraseDups rows)
  have hOnce : (rows.destutter (· ≠ ·)).destutter (· ≠ ·) = rows.destutter (· ≠ ·) := List.destutter_idem ..
  have hStill : Deduplicating.HasPlace env.spill rows.eraseDups := by
    rwa [Deduplicating.HasPlace, hTwice]
  have hReduced : Deduplicating.HasPlace env.spill (rows.destutter (· ≠ ·)) := by
    rwa [Deduplicating.HasPlace, Reducing.eraseDups_destutter]
  refine ⟨hFirsts.feeds, hRuns.feeds, ?_, ?_, ?_, ?_⟩
  · exact hTwice ▸ (pours_distinct hStill hFirsts).feeds
  · exact hOnce ▸ (pours_reduced hRuns).feeds
  · exact Reducing.eraseDups_destutter rows ▸ (pours_distinct hReduced hRuns).feeds
  · exact hApart ▸ (pours_reduced hFirsts).feeds

/-- One row is kept in memory, the other new one goes to a file. -/
theorem distinct_reduced_exact_spilled :
    let env : Environment := { Environment.ofDataset .empty with spill := ⟨1, true⟩ }
    let one : Solution := .ofList [("x", .integer 1)]
    let two : Solution := .ofList [("x", .integer 2)]
    let source := (fun _ => .idle) <$> pour [one, one, two, one]
    Deduplicating.HasPlace env.spill [one, one, two, one] ∧
      (underOne env (.distinct ⟨.new env.spill⟩) source).Feeds [one, two] ∧
      (underOne env (.reduced ⟨none⟩) source).Feeds [one, two, one] := by
  intro env one two source
  have hPlace : Deduplicating.HasPlace env.spill [one, one, two, one] := .inl rfl
  obtain ⟨hFirsts, hRuns, -⟩ := distinct_reduced_exact env hPlace fun _ => .idle
  exact ⟨hPlace, hFirsts, hRuns⟩

end Process

end SolutionFlow
