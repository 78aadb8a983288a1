import Mathlib
import SolutionFlow.Proofs.Meaning.Gathering
import SolutionFlow.Proofs.Meaning.Modifiers
import SolutionFlow.Proofs.Meaning.Yields

/-! Solution modifiers around a sort. The sort keeps no more rows than they can use, and drops repeated rows
as soon as one of them does, wherever slices stand. What comes out is what they make, one after the
other, of all first occurrences in stable order. -/
namespace SolutionFlow

theorem Scope.sortDistinct_eq (scope : Scope) :
    scope.sortDistinct = scope.modifiers.any Modifier.dropsRepeats := by
  refine congrArg (List.any scope.modifiers) (funext fun m => ?_)
  cases m <;> rfl

namespace Plan

open Process

variable {env : Environment} {arg plan : Plan} {seed : Solution} {scope : Scope} {nested : Bool}
  {keys : List (Direction × Expr)} {rows : List Solution} {bound : Nat} {P : List Solution → Prop}

/-- A plan with modifiers around it, the nearest first. -/
def modified (plan : Plan) (modifiers : List Modifier) : Plan :=
  modifiers.foldl (fun plan m => m.around plan) plan

/-- A table supplies its rows: all of them from an empty seed, and else those that agree with the seed. -/
theorem supplies_inline (names : List String) (table : List Solution) (seed : Solution) :
    let rows := if seed.isEmpty then table else table.filterMap seed.assign?
    Supplies env ((inline names table).start env seed scope) (rows.length + 2) (· = rows) :=
  supplies_calling fun _ => rfl

/-- A modifier supplies what it makes of the rows of its argument. -/
theorem supplies_around (m : Modifier) (hWrite : env.spill.canWrite = true)
    (hSome : ∃ rows, P rows) (hCount : ∀ rows, P rows → rows.length ≤ maxCount)
    (h : Supplies env (arg.start env seed (scope.enter m)) bound P) :
    Supplies env ((m.around arg).start env seed scope) bound
      fun out => ∃ rows, P rows ∧ out = m.apply rows := by
  cases m with
  | distinct =>
      exact h.underOne (fun _ => rfl) (fun _ _ => rfl) fun hRows hHeard passes =>
        ⟨_, ⟨_, hRows, rfl⟩, (Deduplicating.turns _).of_passes
          ⟨⟨MemberSet.has_new _, hWrite⟩, rfl⟩ hHeard passes⟩
  | reduced =>
      exact h.underOne (fun _ => rfl) (fun _ _ => rfl) fun hRows hHeard passes =>
        ⟨_, ⟨_, hRows, rfl⟩, (Reducing.turns _).of_passes ⟨rfl, rfl⟩ hHeard passes⟩
  | slice offset limit =>
      simp only [Modifier.around, start]
      split
      next hZero =>
        intro steps t p run
        obtain ⟨hBound, out, rfl, hStreams⟩ := supplies_nothing run
        obtain ⟨rows, hRows⟩ := hSome
        exact ⟨hBound.trans (Nat.zero_le _), [], ⟨rows, hRows, by simp [Modifier.apply, hZero]⟩,
          hStreams⟩
      next hLimit =>
        exact h.underOne (fun _ => rfl) (fun _ _ => rfl) fun hRows hHeard passes =>
          ⟨_, ⟨_, hRows, Window.rowsOf_ofSlice offset limit (hCount _ hRows)⟩,
            (Window.turns (hCount _ hRows)).of_passes
              (Window.shows_first rfl rfl (Window.fit_ofSlice hLimit)) hHeard passes⟩

/-- So do modifiers in a row, when the plan inside them is started in their place. -/
theorem supplies_modified (modifiers outer : List Modifier) (hWrite : env.spill.canWrite = true)
    (hSome : ∃ rows, P rows) (hCount : ∀ rows, P rows → rows.length ≤ maxCount)
    (h : Supplies env (plan.start env seed ⟨modifiers ++ outer, nested⟩) bound P) :
    Supplies env ((plan.modified modifiers).start env seed ⟨outer, nested⟩) bound
      fun out => ∃ rows, P rows ∧ out = Modifier.applyAll modifiers rows := by
  -- the place is handed down from the outermost modifier, so the last one of the list goes first
  induction modifiers using List.reverseRecOn generalizing outer with
  | nil =>
      intro steps t p run
      obtain ⟨hBound, rows, hRows, hStreams⟩ := h run
      exact ⟨hBound, rows, ⟨rows, hRows, rfl⟩, hStreams⟩
  | append_singleton inner m ih =>
      rw [List.append_assoc, List.singleton_append] at h
      have hInner := ih (m :: outer) h
      have hInnerCount : ∀ out, (∃ rows, P rows ∧ out = Modifier.applyAll inner rows) →
          out.length ≤ maxCount := by
        rintro _ ⟨rows, hRows, rfl⟩
        exact (Modifier.applyAll_sublist inner rows).length_le.trans (hCount rows hRows)
      intro steps t p run
      rw [modified, List.foldl_append] at run
      obtain ⟨hBound, out, ⟨_, ⟨rows, hRows, rfl⟩, rfl⟩, hStreams⟩ :=
        supplies_around m hWrite (hSome.elim fun rows hRows => ⟨_, rows, hRows, rfl⟩) hInnerCount
          hInner run
      exact ⟨hBound, _, ⟨rows, hRows, by simp [Modifier.applyAll]⟩, hStreams⟩

/-- A sort supplies the first of the rows that it collects, in stable order. -/
theorem supplies_order (hWrite : env.spill.canWrite = true)
    (hArg : Supplies env (arg.start env seed scope.descend) bound (· = rows))
    (hKeys : Sorting.Evaluable env keys rows) :
    Supplies env ((order arg keys).start env seed scope) bound fun out =>
      ∃ sorted, Sorting.Sorts env keys (Sorting.kept scope.sortDistinct rows) sorted ∧
        out = sorted.take scope.sortLimit := by
  refine hArg.underOne (fun _ => rfl) (fun _ _ => rfl) ?_
  rintro _ heard said s rfl hHeard passes
  obtain ⟨sorted, hSorted, hSaid⟩ := (Sorting.turns scope.sortLimit scope.sortDistinct hKeys).of_passes
    (Sorting.waits_new keys scope hWrite) hHeard passes
  exact ⟨_, ⟨sorted, hSorted, rfl⟩, hSaid⟩

/-- Modifiers around a sort supply what they make of all the rows that it collects, in stable order. -/
theorem supplies_modified_order (modifiers : List Modifier) (hWrite : env.spill.canWrite = true)
    (hArg : Supplies env (arg.start env seed ⟨[], nested⟩) bound (· = rows))
    (hCount : rows.length ≤ maxCount) (hKeys : Sorting.Evaluable env keys rows) :
    Supplies env (((order arg keys).modified modifiers).start env seed ⟨[], nested⟩) bound fun out =>
      ∃ sorted, Sorting.Sorts env keys (Sorting.kept (modifiers.any Modifier.dropsRepeats) rows) sorted ∧
        out = Modifier.applyAll modifiers sorted := by
  have hLength : ∀ {sorted}, Sorting.Sorts env keys
      (Sorting.kept (modifiers.any Modifier.dropsRepeats) rows) sorted → sorted.length ≤ maxCount :=
    fun hSorted => hSorted.perm.length_eq.trans_le
      ((Sorting.kept_sublist _ rows).length_le.trans hCount)
  have hOrder : Supplies env ((order arg keys).start env seed ⟨modifiers ++ [], nested⟩) bound fun out =>
      ∃ sorted, Sorting.Sorts env keys (Sorting.kept (modifiers.any Modifier.dropsRepeats) rows) sorted ∧
        out = sorted.take (Scope.limitOf modifiers) := by
    rw [List.append_nil, ← Scope.sortDistinct_eq ⟨modifiers, nested⟩]
    exact supplies_order hWrite hArg hKeys
  have hKept := hKeys.of_sublist (Sorting.kept_sublist (modifiers.any Modifier.dropsRepeats) rows)
  have hAll := supplies_modified modifiers [] hWrite ?_ ?_ hOrder
  · intro steps t p run
    obtain ⟨hBound, _, ⟨_, ⟨sorted, hSorted, rfl⟩, rfl⟩, hStreams⟩ := hAll run
    refine ⟨hBound, _, ⟨sorted, hSorted, ?_⟩, hStreams⟩
    refine Modifier.applyAll_take_limitOf (hLength hSorted) fun hDrops => ?_
    rw [hSorted.perm.nodup_iff, hDrops, Sorting.kept, if_pos rfl]
    exact nodup_eraseDups rows
  · obtain ⟨sorted, hSorted⟩ := hKept.exists_sorts
    exact ⟨_, sorted, hSorted, rfl⟩
  · rintro _ ⟨sorted, hSorted, rfl⟩
    exact (List.take_sublist _ _).length_le.trans (hLength hSorted)

/-- When no job is left, all rows have been handed over, with the end behind them. -/
theorem eq_of_supplies (h : Supplies env (plan.start env seed scope) bound P) {steps : Nat}
    {t : Trace} {p : Process} (run : Run env (plan.start env seed scope) steps t p)
    (hRefused : t.refused = false) (hFinished : p.Finished) :
    ∃ rows, P rows ∧ t = rows.map (.row · true) ++ [.finish] := by
  obtain ⟨-, rows, hRows, hStreams⟩ := h run
  exact ⟨rows, hRows, hStreams.eq_of_isOver ((plan.keeps run).settled hFinished) hRefused⟩

/-- To drop repeated rows before the sort makes no difference if none of the modifiers drops them, if the
nearest one drops all of them, or if there are none. -/
theorem exists_all_sorted {modifiers : List Modifier} {sorted : List Solution}
    (hSorted : Sorting.Sorts env keys (Sorting.kept (modifiers.any Modifier.dropsRepeats) rows) sorted)
    (h : modifiers.any Modifier.dropsRepeats = false ∨ modifiers.head? = some .distinct ∨ rows.Nodup) :
    ∃ all, Sorting.Sorts env keys rows all ∧
      Modifier.applyAll modifiers sorted = Modifier.applyAll modifiers all := by
  cases hDrops : modifiers.any Modifier.dropsRepeats with
  | false =>
      rw [hDrops] at hSorted
      exact ⟨sorted, hSorted, rfl⟩
  | true =>
      rw [hDrops, Sorting.kept, if_pos rfl] at hSorted
      obtain hNone | hNearest | hNodup := h
      · simp [hDrops] at hNone
      · obtain ⟨outer, rfl⟩ := List.head?_eq_some_iff.mp hNearest
        obtain ⟨all, hAll, rfl⟩ := hSorted.of_eraseDups
        refine ⟨all, hAll, ?_⟩
        have hOnce : all.eraseDups.eraseDups = all.eraseDups := eraseDups_of_nodup (nodup_eraseDups all)
        rw [Modifier.applyAll_cons, Modifier.applyAll_cons, Modifier.apply, hOnce, Modifier.apply]
      · rw [eraseDups_of_nodup hNodup] at hSorted
        exact ⟨sorted, hSorted, rfl⟩

/-- Modifiers directly around a sort. However its jobs take turns, the query comes to an end, and if no row
is refused it has given what the modifiers make, one after the other, of all rows in stable order:
of the first occurrences only, once any of them drops repeated rows. Thus repeated rows are dropped
before slices are taken, even by a modifier outside of them. No difference is seen if no
modifier drops repeated rows, if the nearest one drops all of them, or if no row is repeated. -/
theorem modified_order_gives (modifiers : List Modifier) (hWrite : env.spill.canWrite = true)
    (hArg : Supplies env (arg.start env seed ⟨[], nested⟩) bound (· = rows))
    (hCount : rows.length ≤ maxCount) (hKeys : Sorting.Evaluable env keys rows) :
    (∃ steps t p, Run env (((order arg keys).modified modifiers).start env seed ⟨[], nested⟩) steps t p ∧
      t.refused = false ∧ p.Finished) ∧
    ∀ {steps t p}, Run env (((order arg keys).modified modifiers).start env seed ⟨[], nested⟩) steps t p →
      t.refused = false → steps ≤ bound ∧ (p.Finished →
        (∃ sorted, Sorting.Sorts env keys
            (Sorting.kept (modifiers.any Modifier.dropsRepeats) rows) sorted ∧
          t = (Modifier.applyAll modifiers sorted).map (.row · true) ++ [.finish]) ∧
        (modifiers.any Modifier.dropsRepeats = false ∨ modifiers.head? = some .distinct ∨ rows.Nodup →
          ∃ sorted, Sorting.Sorts env keys rows sorted ∧
            t = (Modifier.applyAll modifiers sorted).map (.row · true) ++ [.finish])) := by
  have hSupplies := supplies_modified_order modifiers hWrite hArg hCount hKeys
  refine ⟨exists_finished fun run _ => (hSupplies run).1, fun {steps t p} run hRefused =>
    ⟨(hSupplies run).1, fun hFinished => ?_⟩⟩
  obtain ⟨_, ⟨sorted, hSorted, rfl⟩, hTrace⟩ := eq_of_supplies hSupplies run hRefused hFinished
  refine ⟨⟨sorted, hSorted, hTrace⟩, fun hSame => ?_⟩
  obtain ⟨all, hAll, hEq⟩ := exists_all_sorted hSorted hSame
  exact ⟨all, hAll, hEq ▸ hTrace⟩

/-- Of three rows, one of them repeated, all but the least are given once. -/
theorem modified_order_gives_second :
    let env : Environment := .ofDataset .empty
    let one : Solution := .ofList [("x", .integer 1)]
    let two : Solution := .ofList [("x", .integer 2)]
    let plan : Plan := (order (inline ["x"] [two, one, two]) [(.ascending, .var "x")]).modified
      [.distinct, .slice (some 1) (some 1)]
    ∃ steps t p, Run env (plan.start env .empty .root) steps t p ∧ t.refused = false ∧ p.Finished ∧
      t = [.row two true, .finish] := by
  intro env one two plan
  have hArg : Supplies env ((inline ["x"] [two, one, two]).start env .empty ⟨[], false⟩) _
      (· = [two, one, two]) := supplies_inline ["x"] _ .empty
  have hKeys : Sorting.Evaluable env [(.ascending, .var "x")] [two, one, two] := fun row _ clock =>
    ⟨_, Sorting.values_var row .ascending "x" clock⟩
  obtain ⟨⟨steps, t, p, run, hRefused, hFinished⟩, hResult⟩ :=
    modified_order_gives [.distinct, .slice (some 1) (some 1)] rfl hArg (by decide) hKeys
  refine ⟨steps, t, p, run, hRefused, hFinished, ?_⟩
  obtain ⟨sorted, hSorted, hTrace⟩ := ((hResult run hRefused).2 hFinished).2 (.inr (.inl rfl))
  have hRows : Modifier.applyAll [.distinct, .slice (some 1) (some 1)] sorted = [two] := by
    rw [hSorted.eq_stable fun row _ clock => Sorting.values_var row .ascending "x" clock]
    cbv
  rw [hTrace, hRows]
  rfl

/-- Below a filter of repeated rows, a slice does not count a repeated row twice: the first two of three
rows in order are one row, but two rows are given. -/
theorem slice_below_distinct_counts_once :
    let env : Environment := .ofDataset .empty
    let one : Solution := .ofList [("x", .integer 1)]
    let two : Solution := .ofList [("x", .integer 2)]
    let keys : List (Direction × Expr) := [(.ascending, .var "x")]
    let modifiers : List Modifier := [.slice none (some 2), .distinct]
    let plan : Plan := (order (inline ["x"] [one, one, two]) keys).modified modifiers
    (∀ sorted, Sorting.Sorts env keys [one, one, two] sorted →
      Modifier.applyAll modifiers sorted = [one]) ∧
    ∃ steps t p, Run env (plan.start env .empty .root) steps t p ∧ t.refused = false ∧ p.Finished ∧
      t = [.row one true, .row two true, .finish] := by
  intro env one two keys modifiers plan
  have hValue (rows : List Solution) : ∀ row ∈ rows, ∀ clock,
      ((Sorting.values env.surroundings row keys).run clock).1 = .ok [(.ascending, row.get? "x")] :=
    fun row _ clock => Sorting.values_var row .ascending "x" clock
  have hArg : Supplies env ((inline ["x"] [one, one, two]).start env .empty ⟨[], false⟩) _
      (· = [one, one, two]) := supplies_inline ["x"] _ .empty
  have hKeys : Sorting.Evaluable env keys [one, one, two] := fun row hMem clock =>
    ⟨_, hValue _ row hMem clock⟩
  have hSupplies := supplies_modified_order modifiers rfl hArg (by decide) hKeys
  obtain ⟨steps, t, p, run, hRefused, hFinished⟩ := exists_finished fun run _ => (hSupplies run).1
  refine ⟨fun sorted hSorted => ?_, steps, t, p, run, hRefused, hFinished, ?_⟩
  · rw [hSorted.eq_stable (hValue _)]
    cbv
  · obtain ⟨_, ⟨sorted, hSorted, rfl⟩, hTrace⟩ := eq_of_supplies hSupplies run hRefused hFinished
    have hRows : Modifier.applyAll modifiers sorted = [one, two] := by
      rw [hSorted.eq_stable (hValue _)]
      cbv
    rw [hTrace, hRows]
    rfl

end Plan

end SolutionFlow
