import Mathlib.Algebra.BigOperators.Group.List.Basic
import Mathlib.Data.List.Infix
import Mathlib.Data.List.Perm.Subperm
import SolutionFlow.Proofs.Expression.Groups

/-! Sums of integers. They are added up one after another, each time within 64 bits, so a sum is there exactly
if no total in between leaves this range, and then it is the exact one. Whether one leaves it depends on the
order of the rows. Some order gives every sum that is in the range itself; all orders do if what is positive
and what is negative add up to integers in the range by themselves. -/
namespace SolutionFlow

/-- A whole number that 64 bits can hold. -/
def FitsInt64 (value : Int) : Prop := Int64.minValue.toInt ≤ value ∧ value ≤ Int64.maxValue.toInt

instance (value : Int) : Decidable (FitsInt64 value) := inferInstanceAs (Decidable (_ ∧ _))

theorem fitsInt64_iff {value : Int} :
    FitsInt64 value ↔ -9223372036854775808 ≤ value ∧ value ≤ 9223372036854775807 := Iff.rfl

theorem fitsInt64_toInt (value : Int64) : FitsInt64 value.toInt :=
  ⟨value.minValue_le_toInt, value.toInt_le⟩

theorem toInt_ofInt_of_fits {value : Int} (h : FitsInt64 value) : (Int64.ofInt value).toInt = value :=
  Int64.toInt_ofInt_of_le h.1 (Int.lt_add_one_of_le h.2)

/-- None of the totals leaves the range while the values are added to a start, one after another. -/
def StaysInRange (start : Int) (values : List Int) : Prop :=
  ∀ shown ∈ values.inits, FitsInt64 (start + shown.sum)

instance (start : Int) (values : List Int) : Decidable (StaysInRange start values) :=
  inferInstanceAs (Decidable (∀ shown ∈ values.inits, FitsInt64 (start + shown.sum)))

/-- What is positive of some values, added up. -/
def gains (values : List Int) : Int := (values.filter (0 < ·)).sum

/-- What is not positive of them, added up. -/
def losses (values : List Int) : Int := (values.filter (· ≤ 0)).sum

section

variable {start : Int} {values others shown order : List Int}

theorem staysInRange_nil : StaysInRange start [] ↔ FitsInt64 start := by simp [StaysInRange]

theorem staysInRange_cons {value : Int} :
    StaysInRange start (value :: values) ↔ FitsInt64 start ∧ StaysInRange (start + value) values := by
  simp [StaysInRange, add_assoc]

theorem StaysInRange.fits_sum (h : StaysInRange start values) : FitsInt64 (start + values.sum) :=
  h values (by simp)

theorem StaysInRange.of_append (h : StaysInRange start (values ++ others)) : StaysInRange start values :=
  fun shown hShown => h shown <|
    (List.mem_inits _ _).mpr (((List.mem_inits _ _).mp hShown).trans (List.prefix_append values others))

theorem sum_filter_cons (p : Int → Bool) (value : Int) (values : List Int) :
    ((value :: values).filter p).sum = (if p value then value else 0) + (values.filter p).sum := by
  rw [List.filter_cons]
  split <;> simp

theorem gains_cons (value : Int) (values : List Int) :
    gains (value :: values) = max value 0 + gains values := by
  rw [gains, gains, sum_filter_cons]
  simp only [decide_eq_true_eq]
  split <;> omega

theorem losses_cons (value : Int) (values : List Int) :
    losses (value :: values) = min value 0 + losses values := by
  rw [losses, losses, sum_filter_cons]
  simp only [decide_eq_true_eq]
  split <;> omega

/-- Some of the values add up to no more than those that are positive, and to no less than those that are
not. -/
theorem losses_le_and_le_gains (h : shown.Sublist values) :
    losses values ≤ shown.sum ∧ shown.sum ≤ gains values := by
  induction h with
  | slnil => exact ⟨Int.le_refl 0, Int.le_refl 0⟩
  | cons value _ ih =>
      rw [losses_cons, gains_cons]
      omega
  | cons_cons value _ ih =>
      rw [losses_cons, gains_cons, List.sum_cons]
      omega

/-- All orders of the values stay in the range if what is positive does by itself, and what is not. -/
theorem staysInRange_of_fits (hGains : FitsInt64 (gains values)) (hLosses : FitsInt64 (losses values))
    (hOrder : order.Perm values) : StaysInRange 0 order := by
  intro shown hShown
  have hBounds := losses_le_and_le_gains ((List.mem_inits _ _).mp hShown).sublist
  have hSameGains : gains order = gains values := (hOrder.filter _).sum_eq
  have hSameLosses : losses order = losses values := (hOrder.filter _).sum_eq
  rw [fitsInt64_iff] at *
  omega

/-- Otherwise one that begins with the positive ones, or with the others, does not. -/
theorem staysInRange_forall_iff :
    (∀ order, order.Perm values → StaysInRange 0 order) ↔
      FitsInt64 (gains values) ∧ FitsInt64 (losses values) := by
  constructor
  · intro h
    have hNegated : (fun value : Int => !decide (0 < value)) = fun value => decide (value ≤ 0) := by
      funext value
      rw [Bool.eq_iff_iff]
      simp
    have hSplit : (values.filter (0 < ·) ++ values.filter (· ≤ 0)).Perm values := by
      simpa only [hNegated] using List.filter_append_perm (fun value => decide (0 < value)) values
    have hFirst := (h _ hSplit).of_append.fits_sum
    have hSecond := (h _ (List.perm_append_comm.trans hSplit)).of_append.fits_sum
    rw [Int.zero_add] at hFirst hSecond
    exact ⟨hFirst, hSecond⟩
  · rintro ⟨hGains, hLosses⟩ order
    exact staysInRange_of_fits hGains hLosses

/-- If the sum is in the range, some value can be added first without leaving it. -/
theorem exists_fits_add (hFits : ∀ value ∈ values, FitsInt64 value) (hStart : FitsInt64 start)
    (hSum : FitsInt64 (start + values.sum)) (hSome : values ≠ []) :
    ∃ value ∈ values, FitsInt64 (start + value) := by
  obtain ⟨value, hValue⟩ := List.exists_mem_of_ne_nil values hSome
  have hBounds := losses_le_and_le_gains (List.singleton_sublist.mpr hValue)
  by_contra! hNone
  have hRange := hFits value hValue
  have hOut := hNone value hValue
  -- no value fits behind the start, so all of them lead away from the range on the same side
  have hSame (p : Int → Bool) (hEach : ∀ other ∈ values, p other = true) : (values.filter p).sum = values.sum :=
    congrArg List.sum (List.filter_eq_self.mpr hEach)
  simp only [fitsInt64_iff, List.sum_singleton] at *
  rcases Int.lt_or_le start 0 with hSign | hSign
  · have hAll : losses values = values.sum := hSame _ fun other hOther => by
      have := hFits other hOther
      have := hNone other hOther
      exact decide_eq_true (by omega)
    omega
  · have hAll : gains values = values.sum := hSame _ fun other hOther => by
      have := hFits other hOther
      have := hNone other hOther
      exact decide_eq_true (by omega)
    omega

/-- Some order of the values stays in the range, if their sum does. -/
theorem exists_staysInRange {start : Int} {values : List Int} (hFits : ∀ value ∈ values, FitsInt64 value)
    (hStart : FitsInt64 start) (hSum : FitsInt64 (start + values.sum)) :
    ∃ order : List Int, order.Perm values ∧ StaysInRange start order := by
  by_cases hSome : values = []
  · exact ⟨[], hSome ▸ .refl _, staysInRange_nil.mpr hStart⟩
  obtain ⟨value, hValue, hNext⟩ := exists_fits_add hFits hStart hSum hSome
  have hPerm : values.Perm (value :: values.erase value) := List.perm_cons_erase hValue
  have hRest : FitsInt64 (start + value + (values.erase value).sum) := by
    rwa [hPerm.sum_eq, List.sum_cons, ← Int.add_assoc] at hSum
  obtain ⟨order, hOrder, hStays⟩ := exists_staysInRange
    (fun other hOther => hFits other (List.mem_of_mem_erase hOther)) hNext hRest
  exact ⟨value :: order, (hOrder.cons value).trans hPerm.symm,
    staysInRange_cons.mpr ⟨hStart, hStays⟩⟩
termination_by values.length
decreasing_by
  rw [List.length_erase_of_mem hValue]
  have := List.length_pos_of_mem hValue
  omega

/-- All orders stay in the range or none, unless the sum is in it and what is positive or what is not is
outside. -/
theorem staysInRange_forall_iff_fits :
    (∀ order, order.Perm values → (StaysInRange 0 order ↔ FitsInt64 values.sum)) ↔
      ¬FitsInt64 values.sum ∨ FitsInt64 (gains values) ∧ FitsInt64 (losses values) := by
  have hNever (hSum : ¬FitsInt64 values.sum) {order : List Int} (hOrder : order.Perm values) :
      ¬StaysInRange 0 order := by
    intro hStays
    have := hStays.fits_sum
    rw [Int.zero_add, hOrder.sum_eq] at this
    exact hSum this
  by_cases hSum : FitsInt64 values.sum
  · simp only [hSum, iff_true, not_true_eq_false, false_or]
    exact staysInRange_forall_iff
  · simp only [hSum, iff_false, not_false_eq_true, true_or, iff_true]
    exact fun order => hNever hSum

end

/-! What is added up of some rows. -/

namespace Term

/-- The total with a term more, if it can be added. -/
def addTo (total : Option Term) (term : Term) : Option Term :=
  match total with
  | none => none
  | some t => (Arithmetic.add.apply t term).toOption

theorem sum?_eq (terms : List Term) : sum? terms = terms.foldl addTo (some (.integer 0)) := rfl

theorem foldl_addTo_none (terms : List Term) : terms.foldl addTo none = none := by
  induction terms with
  | nil => rfl
  | cons term rest ih => exact ih

theorem addTo_integer (a b : Int64) : addTo (some (.integer a)) (.integer b) =
    if FitsInt64 (a.toInt + b.toInt) then some (.integer (.ofInt (a.toInt + b.toInt))) else none := by
  change (Arithmetic.integer (a.toInt + b.toInt)).toOption = _
  have hSum : Arithmetic.integer (a.toInt + b.toInt) =
      if FitsInt64 (a.toInt + b.toInt) then .ok (.integer (.ofInt (a.toInt + b.toInt)))
      else .error (.type .overflow) := rfl
  rw [hSum]
  split <;> rfl

theorem foldl_addTo_integer (start : Int64) (values : List Int64) :
    (values.map Term.integer).foldl addTo (some (.integer start)) =
      if StaysInRange start.toInt (values.map Int64.toInt) then
        some (.integer (.ofInt (start.toInt + (values.map Int64.toInt).sum)))
      else none := by
  induction values generalizing start with
  | nil => simp [staysInRange_nil, fitsInt64_toInt]
  | cons value rest ih =>
      simp only [List.map_cons, List.foldl_cons, addTo_integer, staysInRange_cons, fitsInt64_toInt, true_and,
        List.sum_cons]
      split
      next hFits => rw [ih, toInt_ofInt_of_fits hFits, Int.add_assoc]
      next hOut =>
        rw [foldl_addTo_none, if_neg]
        intro hStays
        exact hOut (by simpa using hStays [] (by simp))

/-- Integers have a sum exactly if no total in between leaves the range, and then it is the exact one. -/
theorem sum?_integers (values : List Int64) :
    sum? (values.map Term.integer) =
      if StaysInRange 0 (values.map Int64.toInt) then
        some (.integer (.ofInt (values.map Int64.toInt).sum))
      else none := by
  have hSum := foldl_addTo_integer 0 values
  rw [Int64.toInt_zero, Int.zero_add] at hSum
  rw [sum?_eq]
  exact hSum

end Term

section

variable {α β : Type}

/-- Any order of what some items come to is what the items come to in some order. -/
theorem exists_perm_filterMap_eq {f : α → Option β} {items : List α} {order : List β}
    (h : order.Perm (items.filterMap f)) : ∃ others : List α, others.Perm items ∧ others.filterMap f = order := by
  induction items generalizing order with
  | nil => exact ⟨[], .refl [], (List.Perm.eq_nil h).symm⟩
  | cons item rest ih =>
      cases hItem : f item with
      | none =>
          rw [List.filterMap_cons_none hItem] at h
          obtain ⟨others, hOthers, rfl⟩ := ih h
          exact ⟨item :: others, hOthers.cons item, List.filterMap_cons_none hItem⟩
      | some value =>
          rw [List.filterMap_cons_some hItem] at h
          obtain ⟨before, behind, rfl⟩ := List.append_of_mem (h.mem_iff.mpr List.mem_cons_self)
          have hRest : (before ++ behind).Perm (rest.filterMap f) :=
            (List.perm_middle.symm.trans h).cons_inv
          obtain ⟨others, hOthers, hValues⟩ := ih hRest
          obtain ⟨first, last, rfl, rfl, rfl⟩ := List.filterMap_eq_append_iff.mp hValues
          refine ⟨first ++ item :: last, List.perm_middle.trans (hOthers.cons item), ?_⟩
          rw [List.filterMap_append, List.filterMap_cons_some hItem]

/-- Any order of the first occurrences of some items is that of the first occurrences in some order. -/
theorem exists_perm_eraseDups_eq [BEq α] [LawfulBEq α] {items order : List α} (h : order.Perm items.eraseDups) :
    ∃ others : List α, others.Perm items ∧ others.eraseDups = order := by
  have hNodup : order.Nodup := h.nodup_iff.mpr (nodup_eraseDups items)
  have hMem (item : α) : item ∈ order ↔ item ∈ items := h.mem_iff.trans List.mem_eraseDups
  refine ⟨order ++ items.diff order, ?_, ?_⟩
  · refine List.subperm_append_diff_self_of_count_le fun item hItem => ?_
    rw [List.count_eq_one_of_mem hNodup hItem]
    exact List.count_pos_iff.mpr ((hMem item).mp hItem)
  · have hNone : (items.diff order).removeAll order = [] := by
      refine List.filter_eq_nil_iff.mpr fun item hItem => ?_
      simp [(hMem item).mpr ((List.diff_sublist items order).mem hItem)]
    rw [List.eraseDups_append, eraseDups_of_nodup hNodup, hNone]
    exact List.append_nil order

end

namespace Aggregate

variable {clocks : Set Clock} {around : Surroundings} {call : Aggregate} {arg : Expr}
  {rows order : List Solution} {worth : Solution → Option Int64}

/-- In each order of theirs the operands are those of the rows in some order. -/
theorem exists_operands_eq {α : Type} [BEq α] [LawfulBEq α] {value : Solution → Option α} {values : List α}
    (h : values.Perm (call.operands value rows)) :
    ∃ order : List Solution, order.Perm rows ∧ call.operands value order = values := by
  rw [operands] at h
  split at h
  next hDistinct =>
    obtain ⟨found, hFound, rfl⟩ := exists_perm_eraseDups_eq h
    obtain ⟨order, hOrder, rfl⟩ := exists_perm_filterMap_eq hFound
    exact ⟨order, hOrder, if_pos hDistinct⟩
  next hAll =>
    obtain ⟨order, hOrder, rfl⟩ := exists_perm_filterMap_eq h
    exact ⟨order, hOrder, if_neg hAll⟩

theorem operands_map {α β : Type} [BEq α] [LawfulBEq α] [BEq β] [LawfulBEq β] {f : α → β}
    (hInjective : f.Injective) (call : Aggregate) (value : Solution → Option α) (rows : List Solution) :
    call.operands (fun row => (value row).map f) rows = (call.operands value rows).map f := by
  have hAll : (rows.filterMap fun row => (value row).map f) = (rows.filterMap value).map f :=
    (List.map_filterMap ..).symm
  rw [operands, operands, hAll]
  split
  · exact eraseDups_map hInjective _
  · rfl

/-- A sum of integers is there if none of the totals in between leaves the range. -/
theorem gives_sum (hFunction : call.function = .sum) (hArg : call.arg = some arg)
    (h : ∀ row ∈ rows, arg.Comes clocks around row ((worth row).map .integer)) :
    Timed.Gives clocks (call.eval around rows)
      (if StaysInRange 0 ((call.operands worth rows).map Int64.toInt) then
        some (.integer (.ofInt ((call.operands worth rows).map Int64.toInt).sum))
      else none) := by
  have hGives : Timed.Gives clocks (call.eval around rows)
      (call.result (fun _ row => (worth row).map .integer) rows) := by
    refine gives_eval fun other hOther row hRow => ?_
    obtain rfl : arg = other := Option.some.inj (hArg.symm.trans hOther)
    exact h row hRow
  rw [result, hArg] at hGives
  have hInjective : Function.Injective Term.integer := fun _ _ => Term.integer.inj
  simp only [hFunction, AggregateFunction.apply, operands_map hInjective, Term.sum?_integers] at hGives
  exact hGives

/-- The sum of integers is there exactly if none of the totals in between leaves the 64 bits, in the order of
the rows, and then it is the exact one, which is the same in all orders. If the exact sum is out of range,
there is none in any order; otherwise some order gives it, and all orders do if what is positive and what is
not add up to integers in the range by themselves. So it is the exact sum, if this is in the range, and none
otherwise, whatever the order, unless the exact sum is in the range and one of these two is not. -/
theorem eval_sum_by_order {clock : Clock} (hClock : clock ∈ clocks) (hFunction : call.function = .sum)
    (hArg : call.arg = some arg)
    (h : ∀ row ∈ rows, arg.Comes clocks around row ((worth row).map .integer)) :
    let summands (order : List Solution) := (call.operands worth order).map Int64.toInt
    let total := (summands rows).sum
    let sum (order : List Solution) := ((call.eval around order).run clock).1
    let proper : Except QueryError (Option Term) :=
      .ok (if FitsInt64 total then some (.integer (.ofInt total)) else none)
    (FitsInt64 total → (Int64.ofInt total).toInt = total) ∧
    (∀ order : List Solution, order.Perm rows → (summands order).sum = total ∧
      sum order = .ok (if StaysInRange 0 (summands order) then some (.integer (.ofInt total)) else none)) ∧
    (∃ order : List Solution, order.Perm rows ∧ sum order = proper) ∧
    ((∀ order : List Solution, order.Perm rows → sum order = proper) ↔
      ¬FitsInt64 total ∨ FitsInt64 (gains (summands rows)) ∧ FitsInt64 (losses (summands rows))) := by
  intro summands total sum proper
  have hPerm {order : List Solution} (hOrder : order.Perm rows) : (summands order).Perm (summands rows) :=
    (perm_operands hOrder).map _
  have hReached {values : List Int} (hValues : values.Perm (summands rows)) :
      ∃ order : List Solution, order.Perm rows ∧ summands order = values := by
    simp only [summands, ← operands_map fun _ _ => Int64.toInt_inj.mp] at hValues ⊢
    exact exists_operands_eq hValues
  have hSum {order : List Solution} (hOrder : order.Perm rows) :
      sum order = .ok (if StaysInRange 0 (summands order) then some (.integer (.ofInt total)) else none) := by
    have hOn : ∀ row ∈ order, arg.Comes clocks around row ((worth row).map .integer) :=
      fun row hRow => h row (hOrder.mem_iff.mp hRow)
    have hTotal : (summands order).sum = total := (hPerm hOrder).sum_eq
    rw [← hTotal]
    exact (gives_sum hFunction hArg hOn clock hClock).1
  have hProper {order : List Solution} (hOrder : order.Perm rows) :
      sum order = proper ↔ (StaysInRange 0 (summands order) ↔ FitsInt64 total) := by
    rw [hSum hOrder]
    by_cases hStays : StaysInRange 0 (summands order) <;> by_cases hFits : FitsInt64 total <;>
      simp [proper, hStays, hFits]
  refine ⟨toInt_ofInt_of_fits, fun order hOrder => ⟨(hPerm hOrder).sum_eq, hSum hOrder⟩, ?_, ?_⟩
  · by_cases hFits : FitsInt64 total
    · have hValues : ∀ value ∈ summands rows, FitsInt64 value := by
        intro value hValue
        obtain ⟨item, -, rfl⟩ := List.mem_map.mp hValue
        exact fitsInt64_toInt item
      have hTotal : FitsInt64 (0 + (summands rows).sum) := by rwa [Int.zero_add]
      obtain ⟨values, hOrdered, hStays⟩ := exists_staysInRange hValues (fitsInt64_toInt 0) hTotal
      obtain ⟨order, hOrder, rfl⟩ := hReached hOrdered
      exact ⟨order, hOrder, (hProper hOrder).mpr (iff_of_true hStays hFits)⟩
    · refine ⟨rows, .refl rows, (hProper (.refl rows)).mpr (iff_of_false (fun hStays => hFits ?_) hFits)⟩
      simpa using hStays.fits_sum
  · rw [← staysInRange_forall_iff_fits]
    constructor
    · intro hAll values hValues
      obtain ⟨order, hOrder, rfl⟩ := hReached hValues
      exact (hProper hOrder).mp (hAll order hOrder)
    · exact fun hAll order hOrder => (hProper hOrder).mpr (hAll _ (hPerm hOrder))

/-- In one order of three rows a total in between is out of range, in another one none is. -/
theorem eval_sum_lost_by_order :
    let around : Surroundings := ⟨fun _ _ => return .ok none⟩
    let call : Aggregate := ⟨.sum, false, some (.var "v")⟩
    let rows (values : List Int64) : List Solution := values.map fun v => .ofList [("v", .integer v)]
    let sum (values : List Int64) := ((call.eval around (rows values)).run (.starting 0)).1
    (rows [9223372036854775807, -1, 1]).Perm (rows [9223372036854775807, 1, -1]) ∧
      FitsInt64 (([9223372036854775807, 1, -1] : List Int64).map Int64.toInt).sum ∧
      sum [9223372036854775807, 1, -1] = .ok none ∧
      sum [9223372036854775807, -1, 1] = .ok (some (.integer 9223372036854775807)) :=
  ⟨(List.Perm.swap ..).cons _, by decide, rfl, rfl⟩

/-- Repeated values and a row without an integer make no difference to a sum of distinct values, which has to
be begun with the least of these to be found. -/
theorem eval_sum_by_order_distinct :
    let around : Surroundings := ⟨fun _ _ => return .ok none⟩
    let call : Aggregate := ⟨.sum, true, some (.var "v")⟩
    let rows : List Solution := [.ofList [("v", .integer 9223372036854775807)], .empty,
      .ofList [("v", .integer 9223372036854775807)], .ofList [("v", .integer 2)], .ofList [("v", .integer (-2))]]
    let worth (row : Solution) : Option Int64 :=
      match row.get? "v" with
      | some (.integer value) => some value
      | _ => none
    call.function = .sum ∧ call.arg = some (.var "v") ∧
      (∀ row ∈ rows, (Expr.var "v").Comes Set.univ around row ((worth row).map .integer)) ∧
      ((call.eval around rows).run (.starting 0)).1 = .ok none ∧
      ∃ order : List Solution, order.Perm rows ∧
        ((call.eval around order).run (.starting 0)).1 = .ok (some (.integer 9223372036854775807)) := by
  intro around call rows worth
  have hComes : ∀ row ∈ rows, (Expr.var "v").Comes Set.univ around row ((worth row).map .integer) := by
    intro row hRow
    have hWorth : (worth row).map Term.integer = row.get? "v" := by
      simp only [rows, List.mem_cons, List.not_mem_nil, or_false] at hRow
      rcases hRow with rfl | rfl | rfl | rfl | rfl <;> rfl
    rw [hWorth]
    exact Expr.comes_var "v"
  obtain ⟨-, hByOrder, hSome, -⟩ := @eval_sum_by_order Set.univ around call (.var "v") rows worth
    (.starting 0) (Set.mem_univ _) rfl rfl hComes
  exact ⟨rfl, rfl, hComes, (hByOrder rows (.refl rows)).2, hSome⟩

end Aggregate

end SolutionFlow
