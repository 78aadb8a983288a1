import Mathlib.Data.List.Destutter
import SolutionFlow.Proofs.Contract.Duties
import SolutionFlow.Proofs.Flow.Streams
import SolutionFlow.Proofs.Meaning.Firsts
import SolutionFlow.Proofs.Spill.Members

/-! What solution modifiers do with a list of rows, and that slices and filters of repeats do this with the
stream of their argument. How many rows a sort has to keep for the modifiers around it follows from what
they do. -/
namespace SolutionFlow

namespace Modifier

/-- What a modifier makes of the rows of its argument. -/
def apply : Modifier → List Solution → List Solution
  | .distinct, rows => rows.eraseDups
  | .reduced, rows => rows.destutter (· ≠ ·)
  | .slice offset limit, rows =>
    let rest := rows.drop (offset.getD 0).toNat
    match limit with
    | some n => rest.take n.toNat
    | none => rest

/-- What modifiers make of rows one after the other, the nearest first. -/
def applyAll (modifiers : List Modifier) (rows : List Solution) : List Solution :=
  modifiers.foldl (fun rows m => m.apply rows) rows

/-- The plan of a modifier. -/
def around : Modifier → Plan → Plan
  | .distinct, arg => .distinct arg
  | .reduced, arg => .reduced arg
  | .slice offset limit, arg => .slice arg offset limit

theorem applyAll_cons (m : Modifier) (outer : List Modifier) (rows : List Solution) :
    applyAll (m :: outer) rows = applyAll outer (m.apply rows) := rfl

/-- A modifier leaves rows out, and nothing else. -/
theorem apply_sublist (m : Modifier) (rows : List Solution) : (m.apply rows).Sublist rows := by
  cases m with
  | distinct => exact eraseDups_sublist rows
  | reduced => exact List.destutter_sublist _ _
  | slice offset limit =>
      cases limit with
      | none => exact List.drop_sublist _ _
      | some n => exact (List.take_sublist _ _).trans (List.drop_sublist _ _)

theorem applyAll_sublist (modifiers : List Modifier) (rows : List Solution) :
    (applyAll modifiers rows).Sublist rows := by
  induction modifiers generalizing rows with
  | nil => exact .refl rows
  | cons m outer ih => exact (ih _).trans (m.apply_sublist rows)

/-- Whether a modifier drops repeated rows. -/
def dropsRepeats : Modifier → Bool
  | .slice _ _ => false
  | .distinct | .reduced => true

/-- Rows that are all different have no repeats to drop. -/
theorem apply_of_nodup {m : Modifier} (hDrops : m.dropsRepeats = true) {rows : List Solution}
    (h : rows.Nodup) : m.apply rows = rows := by
  cases m with
  | distinct => exact eraseDups_of_nodup h
  | reduced => exact List.destutter_of_isChain _ _ (List.Pairwise.isChain h)
  | slice offset limit => simp [dropsRepeats] at hDrops

theorem take_addCapped {rows : List Solution} (hCount : rows.length ≤ maxCount) (a b : Nat) :
    rows.take (addCapped a b) = rows.take (a + b) := by
  rw [List.take_eq_take_iff, addCapped]
  omega

/-- Of sorted rows, the modifiers around a sort have no use for more than it keeps for them, if they
meet no repeats where they drop them. -/
theorem applyAll_take_limitOf {modifiers : List Modifier} {rows : List Solution}
    (hCount : rows.length ≤ maxCount)
    (hNodup : modifiers.any dropsRepeats = true → rows.Nodup) :
    applyAll modifiers (rows.take (Scope.limitOf modifiers)) = applyAll modifiers rows := by
  induction modifiers generalizing rows with
  | nil => rw [Scope.limitOf, List.take_of_length_le hCount]
  | cons m outer ih =>
      by_cases hDrops : m.dropsRepeats = true
      · have hRows : rows.Nodup := hNodup (by simp [hDrops])
        have hLimit : Scope.limitOf (m :: outer) = Scope.limitOf outer := by
          cases m <;> simp [dropsRepeats] at hDrops <;> rfl
        rw [hLimit, applyAll_cons, applyAll_cons, apply_of_nodup hDrops hRows,
          apply_of_nodup hDrops (hRows.sublist (List.take_sublist _ _)), ih hCount fun _ => hRows]
      · have hOuter (start : Nat) : applyAll outer ((rows.drop start).take (Scope.limitOf outer)) =
            applyAll outer (rows.drop start) := by
          refine ih ?_ fun hAny => (hNodup ?_).sublist (List.drop_sublist _ _)
          · rw [List.length_drop]
            omega
          · simp [hAny]
        cases m with
        | distinct => simp [dropsRepeats] at hDrops
        | reduced => simp [dropsRepeats] at hDrops
        | slice offset limit =>
            rw [applyAll_cons, applyAll_cons]
            cases offset with
            | none =>
                cases limit with
                | some n => simp [Scope.limitOf, apply, List.take_take]
                | none => simpa [Scope.limitOf, apply] using hOuter 0
            | some start =>
                cases limit with
                | some n =>
                    simp [Scope.limitOf, apply, take_addCapped hCount, List.drop_take, List.take_take]
                | none =>
                    simp only [Scope.limitOf, apply, Option.getD_some]
                    split
                    · rw [take_addCapped hCount, List.drop_take, Nat.add_sub_cancel_left]
                      exact hOuter start.toNat
                    next hNot =>
                      by_cases hZero : start.toNat = 0
                      · rw [hZero]
                        exact hOuter 0
                      · rw [List.take_of_length_le (by omega)]

end Modifier

namespace Window

variable {w first : Window} {given rest rows : List Solution}

/-- The rows of a window. -/
def rowsOf (w : Window) (rows : List Solution) : List Solution := (rows.take w.last).drop w.offset

/-- The window of a slice has the rows that the slice is to give, as far as rows can be counted. -/
theorem rowsOf_ofSlice (offset limit : Option UInt64) (hCount : rows.length ≤ maxCount) :
    (ofSlice offset limit).rowsOf rows = (Modifier.slice offset limit).apply rows := by
  cases limit with
  | none => simp [rowsOf, ofSlice, Modifier.apply, List.take_of_length_le hCount]
  | some n =>
      simp only [rowsOf, ofSlice, Modifier.apply, Modifier.take_addCapped hCount, List.drop_take,
        Nat.add_sub_cancel_left]

theorem nextNumber_eq (h : w.count < maxCount) : w.nextNumber = w.count + 1 := by
  have hSize : UInt64.size = maxCount + 1 := rfl
  exact Nat.mod_eq_of_lt (by omega)

/-- A window that is not closed has not been passed, as far as rows can be counted. -/
theorem Fit.passed (h : w.Fit) (hOpen : w.closed = false) (hCount : w.count ≤ maxCount) :
    w.count < w.last ∨ w.count ≤ w.offset := by
  obtain hFar | ⟨-, hBefore⟩ := h
  · exact .inr (hCount.trans hFar)
  · exact .inl (hBefore hOpen)

/-- The rows of a window that is not yet passed begin with those that have come. -/
theorem exists_rowsOf_eq (w : Window) (given rest : List Solution)
    (hPassed : given.length ≤ w.last ∨ given.length ≤ w.offset) :
    ∃ more, w.rowsOf (given ++ rest) = given.drop w.offset ++ more := by
  rcases hPassed with hLast | hOffset
  · refine ⟨(rest.take (w.last - given.length)).drop (w.offset - given.length), ?_⟩
    rw [rowsOf, List.take_append, List.take_of_length_le hLast, List.drop_append]
  · exact ⟨w.rowsOf (given ++ rest), by rw [List.drop_of_length_le hOffset, List.nil_append]⟩

/-- What a new window has done about some rows that it has been handed, all of which were wanted. -/
structure Shows (first : Window) (given : List Solution) (said : Trace) (w : Window) : Prop where
  offset_eq : w.offset = first.offset
  last_eq : w.last = first.last
  count_eq : w.count = given.length
  isOpen : w.closed = false
  fit : w.Fit
  said_eq : said = (given.drop first.offset).map (.row · true)

theorem shows_first (hCount : first.count = 0) (hOpen : first.closed = false) (hFit : first.Fit) :
    first.Shows [] [] first :=
  ⟨rfl, rfl, hCount, hOpen, hFit, by simp⟩

theorem Shows.passed {said : Trace} (h : first.Shows given said w) (hCount : given.length ≤ maxCount) :
    given.length < first.last ∨ given.length ≤ first.offset := by
  have hPassed := h.fit.passed h.isOpen (h.count_eq ▸ hCount)
  rwa [h.count_eq, h.last_eq, h.offset_eq] at hPassed

theorem Shows.nextNumber_eq {said : Trace} (h : first.Shows given said w)
    (hCount : given.length < maxCount) : w.nextNumber = given.length + 1 := by
  rw [← h.count_eq] at hCount ⊢
  exact Window.nextNumber_eq hCount

/-- A window makes a stream of its rows. -/
theorem turns (hCount : rows.length ≤ maxCount) :
    pipe.Turns rows first.Shows fun said => said.Streams (first.rowsOf rows) where
  accept {given rest row said w t w'} hRows h hRelays := by
    rw [hRows, List.length_append, List.length_cons] at hCount
    have hNext := h.nextNumber_eq (by omega)
    have hFit := dutiful.fit h.fit hRelays
    obtain ⟨hClosed, -⟩ | ⟨-, hSkip, -, rfl, rfl⟩ | ⟨-, hPast, -, rfl, rfl⟩ | ⟨-, -, -, hMore, -⟩ |
      ⟨-, -, -, hMore, -⟩ := says_onRow hRelays
    · simp [h.isOpen] at hClosed
    · rw [hNext, h.offset_eq] at hSkip
      refine ⟨h.offset_eq, h.last_eq, by simp [hNext], h.isOpen, hFit, ?_⟩
      rw [h.said_eq, List.drop_of_length_le (by omega), List.drop_of_length_le (by simpa using hSkip)]
      rfl
    · rw [hNext, h.offset_eq] at hPast
      refine ⟨h.offset_eq, h.last_eq, by simp [hNext], rfl, hFit, ?_⟩
      rw [h.said_eq, List.drop_append_of_le_length (by omega), List.map_append]
      rfl
    · simp at hMore
    · simp at hMore
  going {given rest said w} hRows h := by
    rw [hRows, List.length_append] at hCount
    obtain ⟨more, hMore⟩ := exists_rowsOf_eq first given rest
      ((h.passed (by omega)).imp_left Nat.le_of_lt)
    rw [h.said_eq, hRows]
    exact .going hMore
  refuse {given rest row said w t w'} hRows h hRelays := by
    rw [hRows, List.length_append, List.length_cons] at hCount
    have hNext := h.nextNumber_eq (by omega)
    have hPassed := h.passed (by omega)
    have hSplit : rows = (given ++ [row]) ++ rest := by simp [hRows]
    have hDrop (hPast : first.offset < given.length + 1) :
        (given ++ [row]).drop first.offset = given.drop first.offset ++ [row] :=
      List.drop_append_of_le_length (by omega)
    have hLength : (given ++ [row]).length = given.length + 1 := by simp
    obtain ⟨hClosed, -⟩ | ⟨-, -, hMore, -⟩ | ⟨-, hPast, hInside, rfl, -⟩ | ⟨-, hPast, hLast, -, hSaid, -⟩ |
      ⟨-, hPast, hBeyond, -⟩ := says_onRow hRelays
    · simp [h.isOpen] at hClosed
    · simp at hMore
    · rw [hNext, h.offset_eq] at hPast
      rw [hNext, h.last_eq] at hInside
      obtain ⟨more, hMore⟩ := exists_rowsOf_eq first (given ++ [row]) rest
        (.inl (by omega))
      rw [← hSplit, hDrop hPast, List.append_assoc] at hMore
      rw [h.said_eq]
      exact .refused hMore
    · rw [hNext, h.offset_eq] at hPast
      rw [hNext, h.last_eq] at hLast
      have hAll : first.rowsOf rows = given.drop first.offset ++ [row] := by
        rw [rowsOf, hSplit, List.take_left' (hLength.trans hLast), hDrop hPast]
      rw [h.said_eq]
      rcases hSaid with rfl | rfl
      · have hEnded : Trace.Streams (first.rowsOf rows) _ := .ended
        rw [hAll] at hEnded ⊢
        simpa using hEnded
      · exact .refused hAll
    · rw [hNext, h.offset_eq] at hPast
      rw [hNext, h.last_eq] at hBeyond
      obtain hFar | ⟨hWindow, -⟩ := h.fit
      · rw [h.offset_eq] at hFar
        omega
      · rw [h.offset_eq, h.last_eq] at hWindow
        omega
  finish {said w t w'} h hRelays := by
    obtain ⟨-, ⟨hClosed, -⟩ | ⟨-, rfl⟩⟩ := says_onFinish hRelays
    · simp [h.isOpen] at hClosed
    · have hAll : first.rowsOf rows = rows.drop first.offset := by
        rcases h.passed hCount with hLast | hOffset
        · rw [rowsOf, List.take_of_length_le hLast.le]
        · rw [rowsOf, List.drop_of_length_le hOffset, List.drop_of_length_le]
          exact (List.take_sublist _ _).length_le.trans hOffset
      rw [h.said_eq, ← hAll]
      exact .ended

end Window

/-- A function of lists that keeps each item or leaves it out, by what stands before it. -/
structure Selects (f : List Solution → List Solution) (keeps : List Solution → Solution → Prop) :
    Prop where
  keep : ∀ {given row}, keeps given row → f (given ++ [row]) = f given ++ [row]
  drop : ∀ {given row}, ¬keeps given row → f (given ++ [row]) = f given

namespace Selects

variable {f : List Solution → List Solution} {keeps : List Solution → Solution → Prop}
  {σ : Type} {p : Pipe σ} {Knows : List Solution → σ → Prop}

theorem exists_append (h : Selects f keeps) (given rest : List Solution) :
    ∃ more, f (given ++ rest) = f given ++ more := by
  induction rest generalizing given with
  | nil => exact ⟨[], by simp⟩
  | cons row rest ih =>
      obtain ⟨more, hMore⟩ := ih (given ++ [row])
      rw [List.append_assoc, List.singleton_append] at hMore
      by_cases hKeeps : keeps given row
      · exact ⟨row :: more, by rw [hMore, h.keep hKeeps, List.append_assoc, List.singleton_append]⟩
      · exact ⟨more, by rw [hMore, h.drop hKeeps]⟩

/-- An operator that knows which rows to keep, and hands them on, makes a stream of them. -/
theorem turns (h : Selects f keeps)
    (hRow : ∀ {given row more s t s'}, Knows given s → p.Relays s (.row row more) t s' →
      Knows (given ++ [row]) s' ∧
        (keeps given row ∧ t = [.row row more] ∨ ¬keeps given row ∧ more = true ∧ t = []))
    (hFinish : ∀ {s t s'}, p.Relays s .finish t s' → t = [.finish]) (rows : List Solution) :
    p.Turns rows (fun given said s => Knows given s ∧ said = (f given).map (.row · true))
      fun said => said.Streams (f rows) where
  accept := by
    rintro given rest row _ s t s' - ⟨hKnows, rfl⟩ hRelays
    obtain ⟨hNext, ⟨hKeeps, rfl⟩ | ⟨hDrops, -, rfl⟩⟩ := hRow hKnows hRelays
    · exact ⟨hNext, by rw [h.keep hKeeps, List.map_append]; rfl⟩
    · exact ⟨hNext, by rw [h.drop hDrops, List.append_nil]⟩
  going := by
    rintro given rest _ s rfl ⟨-, rfl⟩
    obtain ⟨more, hMore⟩ := h.exists_append given rest
    exact .going hMore
  refuse := by
    rintro given rest row _ s t s' rfl ⟨hKnows, rfl⟩ hRelays
    obtain ⟨-, ⟨hKeeps, rfl⟩ | ⟨-, hMore, -⟩⟩ := hRow hKnows hRelays
    · obtain ⟨more, hMore⟩ := h.exists_append (given ++ [row]) rest
      rw [h.keep hKeeps, List.append_assoc, List.append_assoc] at hMore
      exact .refused hMore
    · simp at hMore
  finish := by
    rintro _ s t s' ⟨-, rfl⟩ hRelays
    obtain rfl := hFinish hRelays
    exact .ended

end Selects

namespace Deduplicating

theorem selects : Selects List.eraseDups fun given row => row ∉ given where
  keep hNew := by rw [eraseDups_concat, if_neg hNew]
  drop hOld := by rw [eraseDups_concat, if_pos (not_not.mp hOld)]

/-- The operator has these rows in its set, and can take more. -/
def Knows (given : List Solution) (s : Deduplicating) : Prop :=
  s.seen.Has given ∧ s.seen.options.canWrite = true

/-- A row is handed on if it is new. -/
theorem Knows.onRow {given : List Solution} {row : Solution} {more : Bool} {s s' : Deduplicating}
    {t : Trace} (h : Knows given s) (hRelays : pipe.Relays s (.row row more) t s') :
    Knows (given ++ [row]) s' ∧
      (row ∉ given ∧ t = [.row row more] ∨ ¬row ∉ given ∧ more = true ∧ t = []) := by
  obtain ⟨hHas, hWrite⟩ := h
  obtain ⟨seen, hAdd, hOptions, hNext⟩ := hHas.exists_add hWrite row
  have hSays : (s.onRow row).Says t (more, s') := hRelays
  by_cases hOld : row ∈ given
  · simp only [Deduplicating.onRow, hAdd, hOld, not_true_eq_false, decide_false, Emission.says_pure,
      Prod.mk.injEq] at hSays
    obtain ⟨rfl, rfl, rfl⟩ := hSays
    exact ⟨⟨hNext, hOptions ▸ hWrite⟩, .inr ⟨not_not.mpr hOld, rfl, rfl⟩⟩
  · simp only [Deduplicating.onRow, hAdd, hOld, not_false_eq_true, decide_true, bind_pure_comp,
      Emission.says_map, Emission.says_push, Prod.mk.injEq] at hSays
    obtain ⟨_, rfl, rfl, rfl⟩ := hSays
    exact ⟨⟨hNext, hOptions ▸ hWrite⟩, .inl ⟨hOld, rfl⟩⟩

/-- A duplicate filter makes a stream of the first occurrences. -/
theorem turns (rows : List Solution) :
    pipe.Turns rows (fun given said s => Knows given s ∧ said = given.eraseDups.map (.row · true))
      fun said => said.Streams rows.eraseDups :=
  selects.turns Knows.onRow (fun h => (relays_finish.mp h).1) rows

end Deduplicating

namespace Reducing

/-- What is kept of a list does not depend on what comes behind. -/
theorem destutter_concat (rows : List Solution) (row : Solution) :
    (rows ++ [row]).destutter (· ≠ ·) =
      if rows.getLast? = some row then rows.destutter (· ≠ ·)
      else rows.destutter (· ≠ ·) ++ [row] := by
  cases rows with
  | nil => simp
  | cons first rest =>
      simp only [List.cons_append, List.destutter]
      induction rest generalizing first with
      | nil =>
          by_cases hSame : first = row <;> simp [List.destutter', hSame]
      | cons next rest ih =>
          rw [List.getLast?_cons_cons, List.cons_append]
          simp only [List.destutter']
          by_cases hSame : first = next
          · simpa [hSame] using ih next
          · rw [if_pos hSame, if_pos hSame, ih next]
            split <;> rfl

theorem selects : Selects (List.destutter (· ≠ ·)) fun given row => given.getLast? ≠ some row where
  keep hOther := by rw [destutter_concat, if_neg hOther]
  drop hSame := by rw [destutter_concat, if_pos (not_not.mp hSame)]

/-- A row is handed on if the one before is another. -/
theorem onRow_previous {given : List Solution} {row : Solution} {more : Bool} {s s' : Reducing}
    {t : Trace} (h : s.previous = given.getLast?) (hRelays : pipe.Relays s (.row row more) t s') :
    s'.previous = (given ++ [row]).getLast? ∧
      (given.getLast? ≠ some row ∧ t = [.row row more] ∨
        ¬given.getLast? ≠ some row ∧ more = true ∧ t = []) := by
  rw [List.getLast?_concat, ← h]
  obtain ⟨hSame, rfl, rfl, rfl⟩ | ⟨hOther, rfl, rfl⟩ := says_onRow hRelays
  · exact ⟨hSame, .inr ⟨not_not.mpr hSame, rfl, rfl⟩⟩
  · exact ⟨rfl, .inl ⟨hOther, rfl⟩⟩

/-- A filter of immediate repeats makes a stream of the rows that do not repeat the one before. -/
theorem turns (rows : List Solution) :
    pipe.Turns rows
      (fun given said s => s.previous = given.getLast? ∧
        said = (given.destutter (· ≠ ·)).map (.row · true))
      fun said => said.Streams (rows.destutter (· ≠ ·)) :=
  selects.turns onRow_previous (fun h => (Pipe.relays_ofRow.mp h).1) rows

end Reducing

end SolutionFlow
