import SolutionFlow.Proofs.Expression.Results
import SolutionFlow.Proofs.Flow.Streams
import SolutionFlow.Proofs.Meaning.Stable
import SolutionFlow.Proofs.Spill.Members

/-! Sorts. A sort takes the rows of its argument in silence, each with the values of the sort expressions
on it, and makes a stream of the first of them in stable order when its argument is over. -/
namespace SolutionFlow

/-- Rows that are handed over together, and the end if all of them are accepted, are a stream. -/
theorem Trace.Streams.of_pushAll {rows : List Solution} {t : Trace} {more : Bool}
    (h : (Emission.pushAll rows).Says t more) :
    Trace.Streams rows (t ++ if more then [.finish] else []) := by
  obtain ⟨rfl, rfl⟩ | ⟨rfl, given, row, rest, hRows, rfl⟩ := Emission.says_pushAll h
  · exact .ended
  · simpa using .refused hRows

namespace Sorting

variable {env : Environment} {keys : List (Direction × Expr)} {limit : Nat} {distinct : Bool}
  {entries : List Valued} {given rows sorted : List Solution} {row : Solution} {s s' : Sorting}
  {t : Trace} {more : Bool}

/-- The sort expressions can have these values on this row. -/
def CanHave (env : Environment) (keys : List (Direction × Expr)) (entry : Valued) : Prop :=
  ∃ clock, ((values env.surroundings entry.2 keys).run clock).1 = .ok entry.1

/-- The sort expressions do not fail on these rows, at whatever time. -/
def Evaluable (env : Environment) (keys : List (Direction × Expr)) (rows : List Solution) : Prop :=
  ∀ row ∈ rows, ∀ clock, ∃ found, ((values env.surroundings row keys).run clock).1 = .ok found

/-- The rows in stable order of values that the sort expressions can have on them. -/
def Sorts (env : Environment) (keys : List (Direction × Expr)) (rows sorted : List Solution) :
    Prop :=
  ∃ entries : List Valued, entries.map Prod.snd = rows ∧ (∀ entry ∈ entries, CanHave env keys entry) ∧
    sorted = stable entries

/-- The rows that a sort collects. -/
def kept (distinct : Bool) (rows : List Solution) : List Solution :=
  if distinct then rows.eraseDups else rows

theorem kept_sublist (distinct : Bool) (rows : List Solution) : (kept distinct rows).Sublist rows := by
  unfold kept
  split
  · exact eraseDups_sublist rows
  · exact .refl rows

/-- Each value has the direction of its expression. -/
theorem directions_of_values {around : Surroundings} {clock : Clock}
    {found : List (Direction × Option Term)}
    (h : ((values around row keys).run clock).1 = .ok found) :
    found.map Prod.fst = keys.map Prod.fst := by
  induction keys generalizing clock found with
  | nil =>
      obtain rfl : [] = found := Except.ok.inj h
      rfl
  | cons key rest ih =>
      obtain ⟨value, later, -, hRest⟩ := Timed.ok_of_bind h
      obtain ⟨others, last, hOthers, hAll⟩ := Timed.ok_of_bind hRest
      obtain rfl : (key.1, value) :: others = found := Except.ok.inj hAll
      rw [List.map_cons, List.map_cons, ih hOthers]

/-- A name has the same value at any time. -/
theorem values_var {around : Surroundings} (row : Solution) (direction : Direction) (name : String)
    (clock : Clock) : ((values around row [(direction, .var name)]).run clock).1 =
      .ok [(direction, row.get? name)] := by
  rw [values, Expr.value?, Expr.eval]
  cases row.get? name <;> rfl

theorem directed_of_canHave (h : ∀ entry ∈ entries, CanHave env keys entry) :
    Directed (keys.map Prod.fst) entries := by
  intro entry hMem
  obtain ⟨clock, hFound⟩ := h entry hMem
  exact directions_of_values hFound

theorem Evaluable.of_sublist (h : Evaluable env keys rows) (hGiven : given.Sublist rows) :
    Evaluable env keys given := fun row hMem => h row (hGiven.subset hMem)

/-- Rows on which the sort expressions do not fail can be sorted. -/
theorem Evaluable.exists_sorts (h : Evaluable env keys rows) : ∃ sorted, Sorts env keys rows sorted := by
  have hEntries : ∃ entries : List Valued, entries.map Prod.snd = rows ∧
      ∀ entry ∈ entries, CanHave env keys entry := by
    induction rows with
    | nil => exact ⟨[], rfl, by simp⟩
    | cons row rest ih =>
        obtain ⟨hRow, hRest⟩ := List.forall_mem_cons.mp h
        obtain ⟨entries, rfl, hAll⟩ := ih hRest
        obtain ⟨found, hFound⟩ := hRow (.starting 0)
        exact ⟨(found, row) :: entries, rfl, List.forall_mem_cons.mpr ⟨⟨_, hFound⟩, hAll⟩⟩
  obtain ⟨entries, hRows, hAll⟩ := hEntries
  exact ⟨stable entries, entries, hRows, hAll, rfl⟩

theorem Sorts.perm (h : Sorts env keys rows sorted) : sorted.Perm rows := by
  obtain ⟨entries, rfl, -, rfl⟩ := h
  exact stable_perm entries

/-- Where the values do not depend on the time, there is only one stable order. -/
theorem Sorts.eq_stable (h : Sorts env keys rows sorted)
    {value : Solution → List (Direction × Option Term)}
    (hValue : ∀ row ∈ rows, ∀ clock,
      ((values env.surroundings row keys).run clock).1 = .ok (value row)) :
    sorted = stable (valuedBy value rows) := by
  obtain ⟨entries, rfl, hCan, rfl⟩ := h
  rw [valuedBy, List.map_map]
  conv_lhs => rw [← List.map_id entries]
  refine congrArg stable (List.map_congr_left fun entry hMem => ?_)
  obtain ⟨clock, hFound⟩ := hCan entry hMem
  rw [hValue entry.2 (List.mem_map_of_mem hMem)] at hFound
  exact Prod.ext (Except.ok.inj hFound).symm rfl

/-- What comes of sorting the first occurrences comes of sorting all rows as well, if only the first
occurrences of the sorted rows are kept. -/
theorem Sorts.of_eraseDups (h : Sorts env keys rows.eraseDups sorted) :
    ∃ all, Sorts env keys rows all ∧ sorted = all.eraseDups := by
  obtain ⟨entries, hRows, hCan, rfl⟩ := h
  obtain ⟨value, hEntries⟩ := exists_eq_valuedBy (hRows ▸ nodup_eraseDups rows)
  rw [hRows] at hEntries
  subst hEntries
  have hAll : ∀ entry ∈ valuedBy value rows, CanHave env keys entry := by
    refine List.forall_mem_map.mpr fun row hMem => hCan _ (List.mem_map_of_mem ?_)
    exact List.mem_eraseDups.mpr hMem
  refine ⟨stable (valuedBy value rows), ⟨_, ?_, hAll, rfl⟩, (directed_of_canHave hAll).stable_eraseDups⟩
  rw [valuedBy, List.map_map]
  exact List.map_id _

/-- A sort has collected these rows under these values, in this order of arrival. -/
structure Gathered (env : Environment) (keys : List (Direction × Expr)) (limit : Nat)
    (entries : List Valued) (s : Sorting) : Prop where
  keys_eq : s.keys = keys
  limit_eq : s.sorter.limit = limit
  arrivals_eq : s.arrivals = entries.length
  canHave : ∀ entry ∈ entries, CanHave env keys entry
  collects : ∃ order, Ascending order ∧ order.Perm (numbered entries) ∧
    order.map SortKey.row = stable entries ∧ s.sorter.Collects order

/-- It collects another row, and nothing is heard of it. -/
theorem Gathered.collect (h : Gathered env keys limit entries s) (hKeys : Evaluable env keys [row])
    (hSays : (s.collect env row).Says t (more, s')) :
    more = true ∧ t = [] ∧ s'.seen = s.seen ∧
      ∃ found, Gathered env keys limit (entries ++ [(found, row)]) s' := by
  obtain ⟨order, hOrder, hPerm, -, hCollects⟩ := h.collects
  simp only [Sorting.collect, Emission.says_bind, Emission.says_asking, h.keys_eq] at hSays
  obtain ⟨_, outcome, t₂, ⟨rfl, clock, rfl⟩, hRest, rfl⟩ := hSays
  obtain ⟨found, hFound⟩ := hKeys row List.mem_cons_self clock
  have hAll : ∀ entry ∈ entries ++ [(found, row)], CanHave env keys entry :=
    List.forall_mem_append.mpr ⟨h.canHave, List.forall_mem_singleton.mpr ⟨clock, hFound⟩⟩
  obtain ⟨order', hOrder', hPerm', hRows', hMore⟩ := (directed_of_canHave hAll).exists_order_concat hPerm
  rw [← h.arrivals_eq] at hMore
  obtain ⟨sorter, hAdd, hLimit, hCollects'⟩ := hCollects.add hOrder hOrder' hMore
  simp only [hFound, hAdd, Emission.says_pure, Prod.mk.injEq] at hRest
  obtain ⟨rfl, rfl, rfl⟩ := hRest
  refine ⟨rfl, rfl, rfl, found, rfl, hLimit.trans h.limit_eq, ?_, hAll,
    order', hOrder', hPerm', hRows', hCollects'⟩
  rw [h.arrivals_eq, List.length_append, List.length_singleton]

/-- What a sort knows of the rows that have come: which ones they are, if it drops repeated rows. -/
def Notes : Bool → List Solution → Sorting → Prop
  | false, _, s => s.seen = none
  | true, given, s => ∃ seen, s.seen = some seen ∧ seen.Has given ∧ seen.options.canWrite = true

/-- A row counts unless it is a repeated one that is to be dropped. -/
theorem Notes.note (h : Notes distinct given s) (row : Solution) :
    ∃ isNew seen, s.note row = (.ok isNew, { s with seen := seen }) ∧
      Notes distinct (given ++ [row]) { s with seen := seen } ∧
      kept distinct (given ++ [row]) = kept distinct given ++ if isNew then [row] else [] := by
  cases distinct with
  | false =>
      have hNone : s.seen = none := h
      have hNote : s.note row = (.ok true, s) := by simp [Sorting.note, hNone]
      exact ⟨true, s.seen, hNote, hNone, rfl⟩
  | true =>
      obtain ⟨seen, hSeen, hHas, hWrite⟩ := h
      obtain ⟨seen', hAdd, hOptions, hHas'⟩ := hHas.exists_add hWrite row
      refine ⟨decide (row ∉ given), some seen', by simp [Sorting.note, hSeen, hAdd],
        ⟨seen', rfl, hHas', hOptions ▸ hWrite⟩, ?_⟩
      simp only [kept, ↓reduceIte, eraseDups_concat]
      by_cases hOld : row ∈ given <;> simp [hOld]

/-- A sort that has heard of these rows and has said nothing. -/
structure Waits (env : Environment) (keys : List (Direction × Expr)) (limit : Nat) (distinct : Bool)
    (given : List Solution) (said : Trace) (s : Sorting) : Prop where
  said_eq : said = []
  notes : Notes distinct given s
  gathered : ∃ entries, entries.map Prod.snd = kept distinct given ∧
    Gathered env keys limit entries s

theorem waits_new (keys : List (Direction × Expr)) (scope : Scope)
    (hWrite : env.spill.canWrite = true) :
    Waits env keys scope.sortLimit scope.sortDistinct [] [] (new keys scope env.spill) where
  said_eq := rfl
  notes := by
    cases hDistinct : scope.sortDistinct with
    | false => simp [Notes, new, hDistinct]
    | true => exact ⟨.new env.spill, by simp [new, hDistinct], MemberSet.has_new _, hWrite⟩
  gathered := by
    have hNone : kept scope.sortDistinct [] = [] := List.sublist_nil.mp (kept_sublist _ _)
    refine ⟨[], hNone.symm, rfl, rfl, rfl, by simp, [], .nil, .refl _, ?_,
      Sorter.collects_new _ hWrite⟩
    simp [stable]

/-- A row is taken in silence. -/
theorem Waits.onRow {said : Trace} (h : Waits env keys limit distinct given said s)
    (hKeys : Evaluable env keys [row]) (hSays : (s.onRow env row).Says t (more, s')) :
    more = true ∧ Waits env keys limit distinct (given ++ [row]) (said ++ t) s' := by
  obtain ⟨rfl, hNotes, entries, hRows, hGathered⟩ := h
  obtain ⟨isNew, seen, hNote, hNext, hKept⟩ := hNotes.note row
  have hGathered : Gathered env keys limit entries { s with seen := seen } := { hGathered with }
  rw [Sorting.onRow, hNote] at hSays
  cases isNew with
  | true =>
      obtain ⟨rfl, rfl, hSeen, found, hMore⟩ := hGathered.collect hKeys hSays
      have hNext : Notes distinct (given ++ [row]) s' := by
        cases distinct with
        | false => exact hSeen.trans hNext
        | true => exact hNext.imp fun other hOther => ⟨hSeen.trans hOther.1, hOther.2⟩
      exact ⟨rfl, rfl, hNext, _, by rw [hKept, List.map_append, hRows]; rfl, hMore⟩
  | false =>
      obtain ⟨rfl, hEq⟩ := hSays
      obtain ⟨rfl, rfl⟩ := Prod.mk.inj hEq
      exact ⟨rfl, rfl, hNext, entries, by rw [hKept, hRows]; simp, hGathered⟩

theorem rows_ofKeys (order : List SortKey) :
    Sorting.rows (Counted.ofKeys order) = order.map SortKey.row := by
  induction order with
  | nil => rfl
  | cons key rest ih => exact congrArg (key.row :: ·) ih

/-- At the end, the first rows in stable order are handed on. -/
theorem Gathered.onFinish (h : Gathered env keys limit entries s) (hSays : s.onFinish.Says t s') :
    t.Streams ((stable entries).take limit) := by
  obtain ⟨order, hOrder, -, hRows, hCollects⟩ := h.collects
  have hSorted : Sorting.rows s.sorter.sorted = (stable entries).take limit := by
    rw [hCollects.sorted_eq hOrder, rows_ofKeys, List.map_take, hRows, h.limit_eq]
  obtain ⟨hClosed, -⟩ | ⟨-, u, more, hPush, rfl⟩ := says_onFinish hSays
  · obtain ⟨held, runs, hHolds⟩ := hCollects
    simp [hHolds.isOpen] at hClosed
  · rw [hSorted] at hPush
    exact .of_pushAll hPush

/-- A sort makes a stream of the first of its rows in stable order. -/
theorem turns (limit : Nat) (distinct : Bool) (hKeys : Evaluable env keys rows) :
    (pipe env).Turns rows (Waits env keys limit distinct) fun said =>
      ∃ sorted, Sorts env keys (kept distinct rows) sorted ∧ said.Streams (sorted.take limit) where
  accept {given rest row said s t s'} hRows h hRelays := by
    refine (h.onRow (fun other hMem => hKeys other ?_) hRelays).2
    simp [hRows, List.mem_singleton.mp hMem]
  going {given rest said s} _ h := by
    obtain ⟨sorted, hSorted⟩ := (hKeys.of_sublist (kept_sublist distinct rows)).exists_sorts
    refine ⟨sorted, hSorted, ?_⟩
    rw [h.said_eq]
    exact .going (List.nil_append _).symm
  refuse {given rest row said s t s'} hRows h hRelays := by
    have hTaken := (h.onRow (fun other hMem => hKeys other ?_) hRelays).1
    · simp at hTaken
    · simp [hRows, List.mem_singleton.mp hMem]
  finish {said s t s'} h hRelays := by
    obtain ⟨rfl, -, entries, hRows, hGathered⟩ := h
    exact ⟨stable entries, ⟨entries, hRows, hGathered.canHave, rfl⟩, hGathered.onFinish hRelays⟩

end Sorting

end SolutionFlow
