import SolutionFlow.Proofs.Contract.Silence
import SolutionFlow.Proofs.Flow.Pouring
import SolutionFlow.Proofs.Meaning.Capping

/-! Slices to the row. Of rows that are poured into it, a slice hands on those in its window and one end, and
wants more up to the row before the last; once a row is refused it hands on nothing more. A slice around
another is one slice. Offsets and limits are numbers of 64 bits, whose sums need not be. -/
namespace SolutionFlow

open Emission (pour)

namespace Trace

variable {rows : List Solution} {row : Solution} {t : Trace}

theorem Streams.orderly (h : Streams rows t) : t.Orderly := by
  cases h with
  | going hRows => simpa using orderly_rows _ orderly_nil
  | ended => exact orderly_rows _ (orderly_singleton _)
  | refused hRows => exact orderly_rows _ (orderly_singleton _)

/-- A row that is accepted first makes a stream longer. -/
theorem Streams.cons (h : Streams rows t) : Streams (row :: rows) (.row row true :: t) := by
  cases h with
  | @going given rest hRows =>
      have hMore : row :: rows = (row :: given) ++ rest := congrArg (row :: ·) hRows
      exact going hMore
  | ended => exact ended
  | @refused given rest other hRows =>
      have hMore : row :: rows = (row :: given) ++ other :: rest := congrArg (row :: ·) hRows
      exact refused hMore

/-- A stream with a refusal has handed over the rows up to the one that was refused, and nothing else. -/
theorem Streams.exists_of_refused (h : Streams rows t) (hRefused : t.refused = true) :
    ∃ given row rest, rows = given ++ row :: rest ∧ t = given.map (.row · true) ++ [.row row false] := by
  cases h with
  | going hRows => simp [refused_rows] at hRefused
  | ended => simp [refused_rows] at hRefused
  | refused hRows => exact ⟨_, _, _, hRows, rfl⟩

end Trace

/-- Of an emission that makes a stream of some rows, all is known that it can say while they are accepted. -/
theorem Emission.exists_says_iff {α : Type} {e : Emission α} {rows : List Solution} {t : Trace}
    (h : ∀ {t v}, e.Says t v → t.Streams rows ∧ t.isOver = true) (hRefused : t.refused = false) :
    (∃ v, e.Says t v) ↔ t = rows.map (.row · true) ++ [.finish] := by
  constructor
  · rintro ⟨v, hSays⟩
    exact (h hSays).1.eq_of_isOver (h hSays).2 hRefused
  · rintro rfl
    obtain ⟨u, v, hSays, hNone⟩ := e.exists_unrefused
    rw [← (h hSays).1.eq_of_isOver (h hSays).2 hNone]
    exact ⟨v, hSays⟩

namespace Window

variable {w w' : Window} {row : Solution} {rows rest : List Solution} {t : Trace} {replies : List Bool}

/-- The rows of a window among those that come next. -/
def rowsNext (w : Window) (rows : List Solution) : List Solution :=
  (rows.take (w.last - w.count)).drop (w.offset - w.count)

/-- The replies to the rows that come next, if those that are handed on are accepted. -/
def repliesTo (w : Window) (rows : List Solution) : List Bool :=
  (List.range' (w.count + 1) rows.length).map fun number => decide (number < w.last)

theorem rowsNext_skip (hSkip : w.count + 1 ≤ w.offset) :
    w.rowsNext (row :: rest) = rowsNext { w with count := w.count + 1 } rest := by
  change ((row :: rest).take (w.last - w.count)).drop (w.offset - w.count) =
    (rest.take (w.last - (w.count + 1))).drop (w.offset - (w.count + 1))
  have hOffset : w.offset - w.count = w.offset - (w.count + 1) + 1 := by omega
  by_cases hLast : w.count < w.last
  · have hMore : w.last - w.count = w.last - (w.count + 1) + 1 := by omega
    rw [hOffset, hMore, List.take_succ_cons, List.drop_succ_cons]
  · have hNone : w.last - w.count = 0 ∧ w.last - (w.count + 1) = 0 := by omega
    rw [hNone.1, hNone.2, List.take_zero, List.take_zero, List.drop_nil, List.drop_nil]

theorem rowsNext_take (hPast : w.offset < w.count + 1) (hInside : w.count + 1 ≤ w.last) :
    w.rowsNext (row :: rest) = row :: rowsNext { w with count := w.count + 1 } rest := by
  change ((row :: rest).take (w.last - w.count)).drop (w.offset - w.count) =
    row :: (rest.take (w.last - (w.count + 1))).drop (w.offset - (w.count + 1))
  have hMore : w.last - w.count = w.last - (w.count + 1) + 1 := by omega
  have hNone : w.offset - w.count = 0 ∧ w.offset - (w.count + 1) = 0 := by omega
  rw [hMore, hNone.1, hNone.2, List.take_succ_cons, List.drop_zero, List.drop_zero]

theorem rowsNext_passed (hPassed : w.last ≤ w.count) : w.rowsNext rows = [] := by
  rw [rowsNext, Nat.sub_eq_zero_of_le hPassed, List.take_zero, List.drop_nil]

theorem repliesTo_cons : w.repliesTo (row :: rest) =
    decide (w.count + 1 < w.last) :: repliesTo { w with count := w.count + 1 } rest := by
  rw [repliesTo, repliesTo, List.length_cons, List.range'_succ, List.map_cons]

theorem repliesTo_passed (hPassed : w.last ≤ w.count + 1) :
    w.repliesTo rows = rows.map fun _ => false := by
  rw [List.map_const', repliesTo, List.eq_replicate_iff]
  refine ⟨by simp, fun reply hMem => ?_⟩
  obtain ⟨number, hNumber, rfl⟩ := List.mem_map.mp hMem
  rw [List.mem_range'_1] at hNumber
  exact decide_eq_false (by omega)

/-- A closed window refuses whatever is poured into it, and says nothing. -/
theorem says_through_closed (hClosed : w.closed = true)
    (h : (pipe.through w (pour rows)).Says t (replies, w')) :
    t = [] ∧ replies = rows.map fun _ => false := by
  induction rows generalizing t replies with
  | nil =>
      obtain ⟨hFinish, rfl⟩ := pipe.says_through_nil.mp h
      obtain ⟨rfl, -⟩ := relays_closed (e := .finish) hClosed hFinish
      exact ⟨rfl, rfl⟩
  | cons row rest ih =>
      obtain ⟨first, more, middle, later, others, hRow, hRest, rfl, rfl⟩ := pipe.says_through_cons.mp h
      obtain ⟨-, rfl, rfl, rfl⟩ | ⟨hOpen, -⟩ | ⟨hOpen, -⟩ | ⟨hOpen, -⟩ | ⟨hOpen, -⟩ := says_onRow hRow
      · obtain ⟨rfl, rfl⟩ := ih hRest
        exact ⟨rfl, rfl⟩
      all_goals simp [hClosed] at hOpen

/-- An open window makes a stream of its rows from what is poured into it, and ends the stream unless one of
them is refused. -/
theorem says_through_pour (hFit : w.Fit) (hOrder : w.offset ≤ w.last) (hOpen : w.closed = false)
    (hCount : w.count + rows.length < maxCount)
    (h : (pipe.through w (pour rows)).Says t (replies, w')) :
    t.Streams (w.rowsNext rows) ∧ t.isOver = true ∧
      (t.refused = false → replies = w.repliesTo rows) := by
  induction rows generalizing w t replies with
  | nil =>
      obtain ⟨hFinish, rfl⟩ := pipe.says_through_nil.mp h
      obtain ⟨-, ⟨hClosed, -⟩ | ⟨-, rfl⟩⟩ := says_onFinish hFinish
      · simp [hOpen] at hClosed
      · have hNone : w.rowsNext [] = [] := by simp [rowsNext]
        rw [hNone]
        exact ⟨.ended, rfl, fun _ => rfl⟩
  | cons row rest ih =>
      obtain ⟨first, more, middle, later, others, hRow, hRest, rfl, rfl⟩ := pipe.says_through_cons.mp h
      rw [List.length_cons] at hCount
      have hNext : w.nextNumber = w.count + 1 := nextNumber_eq (by omega)
      have hStill : middle.Fit := dutiful.fit hFit (show pipe.Relays w (.row row more) first middle from hRow)
      have hBefore : w.count < w.last := by
        rcases hFit with hFar | ⟨-, hBefore⟩
        · omega
        · exact hBefore hOpen
      obtain ⟨hClosed, -⟩ | ⟨-, hSkip, rfl, rfl, rfl⟩ | ⟨-, hPast, hInside, rfl, rfl⟩ |
        ⟨-, hPast, hLast, rfl, hSaid, rfl⟩ | ⟨-, -, hBeyond, -⟩ := says_onRow hRow
      · simp [hOpen] at hClosed
      · rw [hNext] at hSkip hRest hStill
        obtain ⟨hStreams, hOver, hReplies⟩ := ih hStill hOrder hOpen (by simp only; omega) hRest
        have hWanted : w.count + 1 < w.last := by
          rcases hFit with hFar | ⟨hWindow, -⟩
          · omega
          · exact Nat.lt_of_le_of_lt hSkip hWindow
        rw [rowsNext_skip hSkip, repliesTo_cons, decide_eq_true hWanted]
        exact ⟨hStreams, hOver, fun hRefused => congrArg (true :: ·) (hReplies hRefused)⟩
      · rw [hNext] at hPast hInside hRest hStill
        rw [rowsNext_take hPast hInside.le]
        cases more with
        | true =>
            obtain ⟨hStreams, hOver, hReplies⟩ := ih hStill hOrder rfl (by simp only; omega) hRest
            rw [repliesTo_cons, decide_eq_true hInside]
            refine ⟨hStreams.cons, ?_, fun hRefused => ?_⟩
            · rw [Trace.isOver_append, hOver, Bool.or_true]
            · exact congrArg (true :: ·) (hReplies (by simpa using hRefused))
        | false =>
            obtain ⟨rfl, -⟩ := says_through_closed rfl hRest
            exact ⟨.refused (List.nil_append _).symm, rfl, by simp⟩
      · rw [hNext] at hPast hLast hRest
        obtain ⟨rfl, rfl⟩ := says_through_closed rfl hRest
        have hAll : w.rowsNext (row :: rest) = [row] := by
          rw [rowsNext_take hPast hLast.le, rowsNext_passed (by simp only; omega)]
        rw [hAll, List.append_nil]
        rcases hSaid with rfl | rfl
        · refine ⟨.ended, rfl, fun _ => ?_⟩
          rw [repliesTo_passed (by omega)]
          rfl
        · exact ⟨.refused (List.nil_append _).symm, rfl, by simp⟩
      · omega

theorem offset_le_last (offset limit : Option UInt64) :
    (ofSlice offset limit).offset ≤ (ofSlice offset limit).last := by
  have hLe : (offset.getD 0).toNat ≤ maxCount := Nat.le_of_lt_succ (offset.getD 0).toNat_lt
  cases limit with
  | none => exact hLe
  | some n =>
      simp only [ofSlice, addCapped]
      omega

end Window

namespace Modifier

/-- Whether a slice wants more rows behind the one with this number. -/
def wantsBehind (offset limit : Option UInt64) (number : Nat) : Bool :=
  match limit with
  | none => true
  | some n => decide (number < (offset.getD 0).toNat + n.toNat)

/-- As far as rows can be counted, a slice replies to each by its number. -/
theorem repliesTo_ofSlice (offset limit : Option UInt64) {rows : List Solution}
    (hCount : rows.length < maxCount) :
    (Window.ofSlice offset limit).repliesTo rows =
      (List.range' 1 rows.length).map (wantsBehind offset limit) := by
  refine List.map_congr_left fun number hMem => ?_
  have hNumber : number < maxCount := by
    have hLast := (List.mem_range'_1.mp hMem).2
    have hFirst : (Window.ofSlice offset limit).count = 0 := rfl
    omega
  cases limit with
  | none => exact decide_eq_true hNumber
  | some n =>
      refine decide_eq_decide.mpr ?_
      simp only [Window.ofSlice, addCapped]
      omega

/-- The lesser of two limits, of which one that is absent is infinite. -/
def lesserLimit : Option UInt64 → Option UInt64 → Option UInt64
  | some a, some b => some (if a ≤ b then a else b)
  | some a, none => some a
  | none, limit => limit

/-- What is left of a limit when so many rows have been skipped. -/
def limitBehind (skipped : UInt64) (limit : Option UInt64) : Option UInt64 :=
  limit.map fun n => if n ≤ skipped then 0 else n - skipped

theorem toNat_lesser (a b : UInt64) : (if a ≤ b then a else b).toNat = min a.toNat b.toNat := by
  split
  next hLe => exact (Nat.min_eq_left (UInt64.le_iff_toNat_le.mp hLe)).symm
  next hNot =>
    rw [UInt64.le_iff_toNat_le, Nat.not_le] at hNot
    exact (Nat.min_eq_right hNot.le).symm

theorem toNat_left (skipped n : UInt64) :
    (if n ≤ skipped then 0 else n - skipped).toNat = n.toNat - skipped.toNat := by
  split
  next hLe =>
    rw [Nat.sub_eq_zero_of_le (UInt64.le_iff_toNat_le.mp hLe)]
    rfl
  next hNot =>
    rw [UInt64.le_iff_toNat_le, Nat.not_le] at hNot
    exact UInt64.toNat_sub_of_le _ _ (UInt64.le_iff_toNat_le.mpr hNot.le)

/-- A slice of a slice is one slice. -/
theorem apply_slice_slice {offset limit offset' limit' : Option UInt64}
    (hFits : (offset.getD 0).toNat + (offset'.getD 0).toNat < UInt64.size) (rows : List Solution) :
    (slice offset' limit').apply ((slice offset limit).apply rows) =
      (slice (some (offset.getD 0 + offset'.getD 0))
        (lesserLimit limit' (limitBehind (offset'.getD 0) limit))).apply rows := by
  have hSum : (offset.getD 0 + offset'.getD 0).toNat =
      (offset.getD 0).toNat + (offset'.getD 0).toNat := by
    rw [UInt64.toNat_add]
    exact Nat.mod_eq_of_lt hFits
  cases limit with
  | none =>
      cases limit' <;>
        simp [apply, limitBehind, lesserLimit, hSum, List.drop_drop]
  | some n =>
      cases limit' <;>
        simp [apply, limitBehind, lesserLimit, hSum, toNat_left, toNat_lesser, List.drop_drop,
          List.drop_take, List.take_take]

end Modifier

namespace Process

variable {env : Environment} {offset limit : Option UInt64} {rows : List Solution} {t : Trace} {p : Process}

/-- A slice of no rows ends at once. Any other puts its window above its argument. -/
theorem startModifier_slice (arg : Emission Process) :
    startModifier env arg (.slice offset limit) =
      if limit = some 0 then nothing
      else (fun r => .node (.slice r.2) [r.1]) <$> Window.pipe.through (.ofSlice offset limit) arg := by
  simp only [startModifier, Modifier.takesNone, decide_eq_true_eq]
  split
  · rfl
  · change underOne env (Operator.slice (.ofSlice offset limit)) arg = _
    rw [underOne_wrap (fun _ => rfl) fun _ => rfl]

/-- A slice of no rows says what a stream of no rows does. -/
theorem says_slice_zero (hZero : limit = some 0) (h : Process.nothing.Says t p) :
    t.Streams ((Modifier.slice offset limit).apply rows) ∧ t.isOver = true := by
  obtain ⟨-, rfl⟩ := says_nothing h
  have hNone : (Modifier.slice offset limit).apply rows = [] := by simp [Modifier.apply, hZero]
  rw [hNone]
  exact ⟨.ended, rfl⟩

/-- What a slice says of rows that are poured into it, and what it replies. -/
theorem says_slice_pour (hCount : rows.length < maxCount) (leave : List Bool → Process)
    (h : (startModifier env (leave <$> pour rows) (.slice offset limit)).Says t p) :
    t.Streams ((Modifier.slice offset limit).apply rows) ∧ t.isOver = true ∧
      (t.refused = false → limit ≠ some 0 → ∃ w, p = .node (.slice w)
        [leave ((List.range' 1 rows.length).map (Modifier.wantsBehind offset limit))]) := by
  rw [startModifier_slice] at h
  split at h
  next hZero =>
    obtain ⟨hStreams, hOver⟩ := says_slice_zero hZero h
    exact ⟨hStreams, hOver, fun _ hLimit => absurd hZero hLimit⟩
  next hLimit =>
    rw [Pipe.through_map, Functor.map_map, Emission.says_map] at h
    obtain ⟨⟨replies, w⟩, hSays, rfl⟩ := h
    obtain ⟨hStreams, hOver, hReplies⟩ := Window.says_through_pour (Window.fit_ofSlice hLimit)
      (Window.offset_le_last offset limit) rfl ((Nat.zero_add _).trans_lt hCount) hSays
    rw [← Window.rowsOf_ofSlice offset limit hCount.le]
    refine ⟨hStreams, hOver, fun hRefused _ => ⟨w, ?_⟩⟩
    rw [hReplies hRefused, Modifier.repliesTo_ofSlice offset limit hCount]

/-- A slice makes a stream of its rows from a stream of others, and tells when it is over. -/
theorem says_slice_stream {arg : Emission Process} (hCount : rows.length ≤ maxCount)
    (hArg : ∀ {t p}, arg.Says t p → t.Streams rows ∧ t.isOver = true)
    (h : (startModifier env arg (.slice offset limit)).Says t p) :
    t.Streams ((Modifier.slice offset limit).apply rows) ∧ t.isOver = true := by
  rw [startModifier_slice] at h
  split at h
  next hZero => exact says_slice_zero hZero h
  next hLimit =>
    rw [Emission.says_map] at h
    obtain ⟨⟨child, w⟩, hThrough, -⟩ := h
    obtain ⟨heard, hHeard, hPasses⟩ := Pipe.passes_of_through hThrough
    obtain ⟨hStream, hOver⟩ := hArg hHeard
    have hFit : (Window.ofSlice offset limit).Fit := Window.fit_ofSlice hLimit
    have hAbides := Window.dutiful.abides hFit Bool.false_ne_true hPasses hStream.orderly
    rw [← Window.rowsOf_ofSlice offset limit hCount]
    exact ⟨(Window.turns hCount).of_passes (Window.shows_first rfl rfl hFit) hStream hPasses,
      hAbides.settled hOver⟩

/-- A slice is started above its argument. Suppose that this pours out rows, fewer than can be counted. If its
consumer accepts what it is handed, these are exactly the rows behind the offset, up to the limit, and one
end behind them; with a limit other than zero, a row is answered with `true` exactly if it stands before
the last of the window. If the consumer refuses a row, nothing more is said to it, and no end. With a
second slice around it, the same rows are handed on as by one slice, as long as the offsets add up to a
number of 64 bits: the limit of that is the outer one, or what the outer offset leaves of the inner one if
this is less. -/
theorem slice_exact (env : Environment) (offset limit : Option UInt64) {rows : List Solution}
    (hCount : rows.length < maxCount) (leave : List Bool → Process) :
    let sliced := startModifier env (leave <$> pour rows) (.slice offset limit)
    let window := (Modifier.slice offset limit).apply rows
    (∀ arg seed scope, (Plan.slice arg offset limit).start env seed scope =
      startModifier env (arg.start env seed (scope.enter (.slice offset limit))) (.slice offset limit)) ∧
    (∃ t p, sliced.Says t p ∧ t.refused = false) ∧
    (∀ t p, sliced.Says t p → t.refused = false →
      t = window.map (.row · true) ++ [.finish] ∧
        (limit ≠ some 0 → ∃ w, p = .node (.slice w)
          [leave ((List.range' 1 rows.length).map (Modifier.wantsBehind offset limit))])) ∧
    (∀ t p, sliced.Says t p → t.refused = true →
      ∃ given row rest, window = given ++ row :: rest ∧
        t = given.map (.row · true) ++ [.row row false]) ∧
    ∀ offset' limit', (offset.getD 0).toNat + (offset'.getD 0).toNat < UInt64.size →
      ∀ t, t.refused = false →
        ((∃ p, (startModifier env sliced (.slice offset' limit')).Says t p) ↔
          ∃ p, (startModifier env (leave <$> pour rows) (.slice (some (offset.getD 0 + offset'.getD 0))
            (Modifier.lesserLimit limit' (Modifier.limitBehind (offset'.getD 0) limit)))).Says t p) := by
  intro sliced window
  have hSliced (offset limit : Option UInt64) {t p}
      (h : (startModifier env (leave <$> pour rows) (.slice offset limit)).Says t p) :
      t.Streams ((Modifier.slice offset limit).apply rows) ∧ t.isOver = true :=
    ⟨(says_slice_pour hCount leave h).1, (says_slice_pour hCount leave h).2.1⟩
  refine ⟨fun arg _ scope => Plan.start_around (.slice offset limit) arg scope, sliced.exists_unrefused,
    fun t p hSays hRefused => ?_, fun t p hSays hRefused => ?_, fun offset' limit' hFits t hRefused => ?_⟩
  · obtain ⟨hStreams, hOver, hReplies⟩ := says_slice_pour hCount leave hSays
    exact ⟨hStreams.eq_of_isOver hOver hRefused, hReplies hRefused⟩
  · exact (hSliced offset limit hSays).1.exists_of_refused hRefused
  · have hWindow : window.length ≤ maxCount :=
      ((Modifier.slice offset limit).apply_sublist rows).length_le.trans hCount.le
    have hTwo {t p} (h : (startModifier env sliced (.slice offset' limit')).Says t p) :=
      says_slice_stream hWindow (hSliced offset limit) h
    rw [Modifier.apply_slice_slice hFits] at hTwo
    rw [Emission.exists_says_iff hTwo hRefused, Emission.exists_says_iff (hSliced _ _) hRefused]

theorem slice_exact_middle :
    let env : Environment := .ofDataset .empty
    let one : Solution := .ofList [("x", .integer 1)]
    let two : Solution := .ofList [("x", .integer 2)]
    let rows : List Solution := [.empty, one, two, one]
    let sliced := startModifier env ((fun _ => .idle) <$> pour rows) (.slice (some 1) (some 2))
    rows.length < maxCount ∧ ∃ p, sliced.Says [.row one true, .row two true, .finish] p := by
  intro env one two rows sliced
  have hCount : rows.length < maxCount := by decide
  obtain ⟨-, ⟨t, p, hSays, hRefused⟩, hAccepted, -⟩ :=
    slice_exact env (some 1) (some 2) hCount fun _ => .idle
  obtain rfl := (hAccepted t p hSays hRefused).1
  exact ⟨hCount, p, hSays⟩

end Process

end SolutionFlow
