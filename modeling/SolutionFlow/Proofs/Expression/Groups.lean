import Mathlib.Data.List.Forall2
import Mathlib.Data.Set.Insert
import SolutionFlow.Proofs.Expression.Results
import SolutionFlow.Proofs.Expression.ThreeValued
import SolutionFlow.Proofs.Meaning.Firsts
import SolutionFlow.Proofs.Solution.Order

/-! Groups. Grouping takes the rows apart by their keys: the keys come in the order in which they appear first,
and a group holds the rows of its key as they came. Each group gives one row, and how many there are of its
rows, the least and the greatest of them do not depend on their order. -/
namespace SolutionFlow

namespace Timed

variable {ε α β : Type} {clocks : Set Clock}

/-- Beginning at any of these clocks, a computation succeeds with the value and leaves one of them behind. -/
def Gives (clocks : Set Clock) (x : ExceptT ε Timed α) (value : α) : Prop :=
  ∀ clock ∈ clocks, (x.run clock).1 = .ok value ∧ (x.run clock).2 ∈ clocks

namespace Gives

theorem pure (value : α) : Gives clocks (Pure.pure value : ExceptT ε Timed α) value :=
  fun _ hClock => ⟨rfl, hClock⟩

theorem bind {x : ExceptT ε Timed α} {a : α} {f : α → ExceptT ε Timed β} {b : β}
    (h : Gives clocks x a) (hNext : Gives clocks (f a) b) : Gives clocks (x >>= f) b := by
  intro clock hClock
  obtain ⟨hValue, hLater⟩ := h clock hClock
  have hRun : (x >>= f).run clock = (f a).run (x.run clock).2 := by
    change ExceptT.bindCont f (x.run clock).1 (x.run clock).2 = _
    rw [hValue]
    rfl
  rw [hRun]
  exact hNext _ hLater

theorem mapM {f : α → ExceptT ε Timed β} {g : α → β} {items : List α}
    (h : ∀ item ∈ items, Gives clocks (f item) (g item)) :
    Gives clocks (items.mapM f) (items.map g) := by
  induction items with
  | nil => exact .pure []
  | cons item rest ih =>
      obtain ⟨hFirst, hRest⟩ := List.forall_mem_cons.mp h
      rw [List.mapM_cons]
      exact hFirst.bind ((ih hRest).bind (.pure _))

end Gives

end Timed

/-! The first of some items in a linear order. -/

section

variable {α : Type} {le : α → α → Prop} {pick : α → α → α}

/-- Of two items one is picked that comes before both. -/
structure Picks (le : α → α → Prop) (pick : α → α → α) : Prop where
  trans : ∀ a b c, le a b → le b c → le a c
  antisymm : ∀ a b, le a b → le b a → a = b
  pick_eq : ∀ a b, pick a b = a ∨ pick a b = b
  le_left : ∀ a b, le (pick a b) a
  le_right : ∀ a b, le (pick a b) b

namespace Picks

theorem refl (h : Picks le pick) (a : α) : le a a := by
  have := h.le_left a a
  rwa [(h.pick_eq a a).elim id id] at this

/-- What is left of some items, if one is picked of two again and again, is one that comes before all. -/
theorem foldl_mem_and_le (h : Picks le pick) (first : α) (rest : List α) :
    rest.foldl pick first ∈ first :: rest ∧ ∀ item ∈ first :: rest, le (rest.foldl pick first) item := by
  induction rest generalizing first with
  | nil => exact ⟨List.mem_cons_self, fun item hItem => List.mem_singleton.mp hItem ▸ h.refl first⟩
  | cons next rest ih =>
      obtain ⟨hMem, hLe⟩ := ih (pick first next)
      have hPicked := hLe _ List.mem_cons_self
      refine ⟨?_, fun item hItem => ?_⟩
      · rcases List.mem_cons.mp hMem with hEq | hRest
        · rw [List.foldl_cons, hEq]
          rcases h.pick_eq first next with hOne | hOne <;> simp [hOne]
        · exact List.mem_cons_of_mem _ (List.mem_cons_of_mem _ hRest)
      · rcases List.mem_cons.mp hItem with rfl | hOther
        · exact h.trans _ _ _ hPicked (h.le_left _ _)
        rcases List.mem_cons.mp hOther with rfl | hRest
        · exact h.trans _ _ _ hPicked (h.le_right _ _)
        · exact hLe item (List.mem_cons_of_mem _ hRest)

/-- In another order the same is left. -/
theorem foldl_eq_of_perm (h : Picks le pick) {first other : α} {rest others : List α}
    (hPerm : (first :: rest).Perm (other :: others)) :
    rest.foldl pick first = others.foldl pick other := by
  obtain ⟨hMem, hLe⟩ := h.foldl_mem_and_le first rest
  obtain ⟨hMemOther, hLeOther⟩ := h.foldl_mem_and_le other others
  exact h.antisymm _ _ (hLe _ (hPerm.mem_iff.mpr hMemOther)) (hLeOther _ (hPerm.mem_iff.mp hMem))

/-- So a function that picks from all items of a list comes to the same in all orders. -/
theorem eq_of_perm (h : Picks le pick) {f : List α → Option α}
    (hCons : ∀ first rest, f (first :: rest) = some (rest.foldl pick first)) {items others : List α}
    (hPerm : items.Perm others) : f items = f others := by
  cases items with
  | nil => rw [hPerm.nil_eq]
  | cons first rest =>
      cases others with
      | nil => exact absurd hPerm.eq_nil (by simp)
      | cons other others => rw [hCons, hCons, h.foldl_eq_of_perm hPerm]

end Picks

end

namespace Term

variable {terms others : List Term}

theorem isLE_of_not_lt {a b : Term} (h : b.cmp a ≠ .lt) : (a.cmp b).isLE = true := by
  have hSwap : a.cmp b = (b.cmp a).swap := Std.OrientedCmp.eq_swap
  rw [hSwap]
  cases hOrder : b.cmp a with
  | lt => exact absurd hOrder h
  | eq | gt => rfl

theorem isLE_refl (a : Term) : (a.cmp a).isLE = true := by
  have hSelf : a.cmp a = .eq := Std.ReflCmp.compare_self
  rw [hSelf]
  rfl

/-- The lesser of two terms comes before both. -/
theorem picks_least :
    Picks (fun a b : Term => (a.cmp b).isLE = true) fun a b => if b.cmp a = .lt then b else a where
  trans _ _ _ := Std.TransCmp.isLE_trans
  antisymm a b h h' := Std.LawfulEqCmp.eq_of_compare (Std.OrientedCmp.isLE_antisymm h h')
  pick_eq a b := by split <;> simp
  le_left a b := by
    split
    next h => simp [h]
    next => exact isLE_refl a
  le_right a b := by
    split
    next => exact isLE_refl b
    next h => exact isLE_of_not_lt h

/-- The greater of two terms comes behind both. -/
theorem picks_greatest :
    Picks (fun a b : Term => (b.cmp a).isLE = true) fun a b => if b.cmp a = .lt then a else b where
  trans _ _ _ h h' := Std.TransCmp.isLE_trans h' h
  antisymm a b h h' := Std.LawfulEqCmp.eq_of_compare (Std.OrientedCmp.isLE_antisymm h' h)
  pick_eq a b := by split <;> simp
  le_left a b := by
    split
    next => exact isLE_refl a
    next h => exact isLE_of_not_lt h
  le_right a b := by
    split
    next h => simp [h]
    next => exact isLE_refl b

theorem least?_eq_of_perm (h : terms.Perm others) : least? terms = least? others :=
  picks_least.eq_of_perm (fun _ _ => rfl) h

theorem greatest?_eq_of_perm (h : terms.Perm others) : greatest? terms = greatest? others :=
  picks_greatest.eq_of_perm (fun _ _ => rfl) h

end Term

/-- On these clocks an expression comes to this value on a row, or to none because of its type. -/
def Expr.Comes (clocks : Set Clock) (around : Surroundings) (row : Solution) (x : Expr)
    (value : Option Term) : Prop :=
  Timed.Gives clocks (x.value? around row) value

namespace Expr

variable {clocks : Set Clock} {around : Surroundings} {row : Solution}

theorem comes_var (name : String) : (Expr.var name).Comes clocks around row (row.get? name) := by
  intro clock hClock
  rw [value?, eval]
  cases row.get? name <;> exact ⟨rfl, hClock⟩

/-- On all clocks that show the same time, an expression without nested queries comes to one value, or to none
because of its type. -/
theorem exists_comes_of_existsFree {x : Expr} (hFree : x.ExistsFree) (around : Surroundings) (now : Nat)
    (row : Solution) : ∃ value, x.Comes {clock | clock.present = now} around row value := by
  have hLasting : Timed.Lasting (x.eval around row).run := x.lasting_eval hFree
  have hDated : Timed.Dated now (x.eval around row).run ((x.asOf now).eval around row).run :=
    x.dated_eval hFree
  have hSame {clock : Clock} (hTime : clock.present = now) :
      ((x.eval around row).run clock).1 = (((x.asOf now).eval around row).run (.starting now)).1 :=
    hDated.fst_eq hLasting hTime (.starting now)
  have hCalm (error : QueryError) : ((x.eval around row).run (.starting now)).1 ≠ .error (.query error) :=
    fun hEnds => x.not_meets_of_existsFree hFree _ ((x.accounts_eval _).ends_met error hEnds)
  rw [hSame rfl] at hCalm
  have hSettled : ∃ value, settle (((x.asOf now).eval around row).run (.starting now)).1 = .ok value := by
    rcases hOutcome : (((x.asOf now).eval around row).run (.starting now)).1 with (fault | error) | term
    · exact ⟨none, rfl⟩
    · exact absurd hOutcome (hCalm error)
    · exact ⟨some term, rfl⟩
  obtain ⟨value, hValue⟩ := hSettled
  refine ⟨value, fun clock hClock => ⟨?_, (hLasting clock).trans hClock⟩⟩
  change settle ((x.eval around row).run clock).1 = .ok value
  rw [hSame hClock, hValue]

end Expr

namespace Aggregate

variable {clocks : Set Clock} {around : Surroundings} {call : Aggregate} {arg : Expr}
  {rows order : List Solution} {value : Expr → Solution → Option Term}

/-- The values that an aggregate is applied to, of equal ones the first if only distinct ones count. -/
def operands {α : Type} [BEq α] (call : Aggregate) (value : Solution → Option α) (rows : List Solution) :
    List α :=
  if call.distinct then (rows.filterMap value).eraseDups else rows.filterMap value

/-- What an aggregate comes to over some rows, by the values of its argument on them. -/
def result (call : Aggregate) (value : Expr → Solution → Option Term) (rows : List Solution) : Option Term :=
  match call.arg with
  | none => some (.ofCount (if call.distinct then rows.eraseDups else rows).length)
  | some arg => call.function.apply (call.operands (value arg) rows)

theorem gives_inputs (h : ∀ row ∈ rows, arg.Comes clocks around row (value arg row)) :
    Timed.Gives clocks (inputs around arg rows) (rows.filterMap (value arg)) := by
  induction rows with
  | nil => exact .pure []
  | cons row rest ih =>
      obtain ⟨hFirst, hRest⟩ := List.forall_mem_cons.mp h
      have hCons : (row :: rest).filterMap (value arg) =
          (value arg row).toList ++ rest.filterMap (value arg) := by
        cases hValue : value arg row <;> simp [hValue]
      rw [hCons]
      exact hFirst.bind ((ih hRest).bind (.pure _))

theorem gives_eval (h : ∀ arg ∈ call.arg, ∀ row ∈ rows, arg.Comes clocks around row (value arg row)) :
    Timed.Gives clocks (call.eval around rows) (call.result value rows) := by
  rw [eval, result]
  cases hArg : call.arg with
  | none => exact .pure _
  | some arg => exact (gives_inputs (h arg hArg)).bind (.pure _)

/-- The operands of rows in another order are the same in another order. -/
theorem perm_operands {α : Type} [BEq α] [LawfulBEq α] {value : Solution → Option α} (h : order.Perm rows) :
    (call.operands value order).Perm (call.operands value rows) := by
  rw [operands, operands]
  split
  · exact perm_eraseDups (h.filterMap value)
  · exact h.filterMap value

/-- A count, or a least or greatest value. -/
def IsOrderFree (call : Aggregate) : Prop :=
  call.function = .count ∨ call.function = .min ∨ call.function = .max

/-- It does not depend on the order of the rows. -/
theorem result_eq_of_perm (hFree : call.IsOrderFree) (h : order.Perm rows) :
    call.result value order = call.result value rows := by
  rw [result, result]
  cases call.arg with
  | none =>
      have hCount : (if call.distinct then order.eraseDups else order).length =
          (if call.distinct then rows.eraseDups else rows).length := by
        split
        · exact (perm_eraseDups h).length_eq
        · exact h.length_eq
      simp only [hCount]
  | some arg =>
      have hOperands : (call.operands (value arg) order).Perm (call.operands (value arg) rows) :=
        perm_operands h
      obtain hFunction | hFunction | hFunction := hFree
      · simp only [hFunction, AggregateFunction.apply, hOperands.length_eq]
      · simp only [hFunction, AggregateFunction.apply, Term.least?_eq_of_perm hOperands]
      · simp only [hFunction, AggregateFunction.apply, Term.greatest?_eq_of_perm hOperands]

end Aggregate

namespace Grouping

variable {clocks : Set Clock} {around : Surroundings} {g : Grouping} {seed : Solution}
  {rows : List Solution} {value : Expr → Solution → Option Term}

/-- A row more goes to the group of its key, which is put behind the others if it is not there. -/
theorem addRow_eq (key : GroupKey) (row : Solution) (keys : List GroupKey) (hNodup : keys.Nodup)
    (f : GroupKey → List Solution) :
    addRow key row (keys.map fun k => (k, f k)) =
      if key ∈ keys then keys.map fun k => (k, if k = key then f k ++ [row] else f k)
      else (keys.map fun k => (k, f k)) ++ [(key, [row])] := by
  induction keys with
  | nil => rfl
  | cons k rest ih =>
      obtain ⟨hFirst, hRest⟩ := List.nodup_cons.mp hNodup
      rw [List.map_cons, addRow, ih hRest]
      by_cases hKey : k = key
      · subst hKey
        have hOthers : (rest.map fun k' => (k', if k' = k then f k' ++ [row] else f k')) =
            rest.map fun k' => (k', f k') := by
          refine List.map_congr_left fun other hOther => ?_
          have hNe : other ≠ k := fun hSame => hFirst (hSame ▸ hOther)
          rw [if_neg hNe]
        simp [hOthers]
      · have hOther : ¬key = k := fun hSame => hKey hSame.symm
        by_cases hMem : key ∈ rest <;> simp [hKey, hOther, hMem]

/-- The keys in the order in which they appear first, each with the rows of its key. -/
theorem foldl_addRow_eq (rows : List Solution) :
    rows.foldl (fun groups row => addRow (g.key row) row groups) [] =
      (rows.map g.key).eraseDups.map fun key => (key, rows.filter (g.key · = key)) := by
  induction rows using List.reverseRecOn with
  | nil => rfl
  | append_singleton rows row ih =>
      rw [List.foldl_append, ih, List.foldl_cons, List.foldl_nil,
        addRow_eq _ _ _ (nodup_eraseDups _), List.map_append, List.map_singleton, eraseDups_concat]
      simp only [List.mem_eraseDups]
      split
      next hOld =>
        refine List.map_congr_left fun key hKey => ?_
        by_cases hSame : g.key row = key
        · simp [hSame]
        · simp [hSame, Ne.symm hSame]
      next hNew =>
        have hOthers : (rows.map g.key).eraseDups.map
              (fun key => (key, (rows ++ [row]).filter (g.key · = key))) =
            (rows.map g.key).eraseDups.map fun key => (key, rows.filter (g.key · = key)) := by
          refine List.map_congr_left fun key hKey => ?_
          have hNe : g.key row ≠ key := fun hSame => hNew (hSame ▸ List.mem_eraseDups.mp hKey)
          simp [hNe]
        have hNone : rows.filter (g.key · = g.key row) = [] := by
          refine List.filter_eq_nil_iff.mpr fun other hOther => ?_
          simpa using fun hSame => hNew (List.mem_map.mpr ⟨other, hOther, hSame⟩)
        rw [List.map_append, hOthers, List.map_singleton, List.filter_append, hNone]
        simp

/-- Without grouping names there is a group even of no rows. -/
theorem groups_eq (rows : List Solution) :
    g.groups rows =
      if rows = [] ∧ g.names = [] then [([], [])]
      else (rows.map g.key).eraseDups.map fun key => (key, rows.filter (g.key · = key)) := by
  have hEmpty : (rows.map g.key).eraseDups = [] ↔ rows = [] := by
    rw [← List.length_eq_zero_iff]
    cases rows <;> simp [List.eraseDups_cons]
  have hCondition : (((rows.map g.key).eraseDups.map fun key =>
      (key, rows.filter (g.key · = key))).isEmpty && g.names.isEmpty) = true ↔
        rows = [] ∧ g.names = [] := by
    rw [Bool.and_eq_true, List.isEmpty_iff, List.isEmpty_iff, List.map_eq_nil_iff, hEmpty]
  rw [groups]
  simp only [foldl_addRow_eq, hCondition]

/-- The rows of a group are those of its key. -/
theorem key_of_mem_group {group : GroupKey × List Solution} (h : group ∈ g.groups rows) {row : Solution}
    (hRow : row ∈ group.2) : row ∈ rows ∧ g.key row = group.1 := by
  rw [groups_eq] at h
  split at h
  · obtain rfl := List.mem_singleton.mp h
    exact absurd hRow List.not_mem_nil
  · obtain ⟨key, -, rfl⟩ := List.mem_map.mp h
    simpa using hRow

theorem perm_addRow (key : GroupKey) (row : Solution) (groups : List (GroupKey × List Solution)) :
    ((addRow key row groups).flatMap (·.2)).Perm (groups.flatMap (·.2) ++ [row]) := by
  induction groups with
  | nil => exact .refl _
  | cons group rest ih =>
      rw [addRow]
      split
      · rw [List.flatMap_cons, List.flatMap_cons, List.append_assoc, List.append_assoc]
        exact List.Perm.append_left _ List.perm_append_comm
      · rw [List.flatMap_cons, List.flatMap_cons, List.append_assoc]
        exact ih.append_left _

/-- Each row is in exactly one group. -/
theorem perm_groups (g : Grouping) (rows : List Solution) : ((g.groups rows).flatMap (·.2)).Perm rows := by
  have hFold : ((rows.foldl (fun groups row => addRow (g.key row) row groups) []).flatMap (·.2)).Perm rows := by
    induction rows using List.reverseRecOn with
    | nil => exact .refl []
    | append_singleton rows row ih =>
        rw [List.foldl_append]
        exact (perm_addRow _ _ _).trans (ih.append_right [row])
  rw [groups]
  split
  next hNone =>
    rw [List.isEmpty_iff.mp (Bool.and_eq_true_iff.mp hNone).1] at hFold
    exact hFold
  next => exact hFold

/-- The key of a row goes over what the seed binds. -/
theorem get?_bindKey_key (seed row : Solution) (name : String) :
    (g.bindKey seed (g.key row)).get? name =
      if name ∈ g.names then (row.get? name).or (seed.get? name) else seed.get? name := by
  obtain ⟨names, elements⟩ := g
  induction names generalizing seed with
  | nil => rfl
  | cons first rest ih =>
      cases hFirst : row.get? first with
      | none =>
          have hStep : bindKey ⟨first :: rest, elements⟩ seed (key ⟨first :: rest, elements⟩ row) =
              bindKey ⟨rest, elements⟩ seed (key ⟨rest, elements⟩ row) := by
            simp [bindKey, key, hFirst]
          rw [hStep, ih]
          by_cases hSame : name = first
          · simp [hSame, hFirst]
          · simp [hSame]
      | some term =>
          have hStep : bindKey ⟨first :: rest, elements⟩ seed (key ⟨first :: rest, elements⟩ row) =
              bindKey ⟨rest, elements⟩ (seed.insert first term) (key ⟨rest, elements⟩ row) := by
            simp [bindKey, key, hFirst]
          rw [hStep, ih]
          by_cases hSame : name = first
          · simp [hSame, hFirst]
          · simp [hSame]

theorem get?_bindKey_of_not_mem (seed : Solution) (key : GroupKey) {name : String} (hName : name ∉ g.names) :
    (g.bindKey seed key).get? name = seed.get? name := by
  have hZip : ∀ entry ∈ g.names.zip key, entry.1 ≠ name := fun entry hMem hSame =>
    hName (hSame ▸ (List.of_mem_zip hMem).1)
  rw [bindKey]
  generalize g.names.zip key = entries at hZip
  induction entries generalizing seed with
  | nil => rfl
  | cons entry rest ih =>
      obtain ⟨hFirst, hRest⟩ := List.forall_mem_cons.mp hZip
      rw [List.foldl_cons, ih _ hRest]
      cases entry.2 with
      | none => rfl
      | some term => rw [Solution.get?_insert, if_neg (Ne.symm hFirst)]

/-- A row with aggregates bound over some rows, to what they come to. -/
def bound (value : Expr → Solution → Option Term) (rows : List Solution) (start : Solution)
    (elements : List (String × Aggregate)) : Solution :=
  elements.foldl
    (fun row element =>
      match element.2.result value rows with
      | some term => row.insert element.1 term
      | none => row)
    start

theorem gives_bindAggregates {start : Solution} {elements : List (String × Aggregate)}
    (h : ∀ element ∈ elements, ∀ arg ∈ element.2.arg, ∀ row ∈ rows,
      arg.Comes clocks around row (value arg row)) :
    Timed.Gives clocks (bindAggregates around rows start elements) (bound value rows start elements) := by
  induction elements generalizing start with
  | nil => exact .pure start
  | cons element rest ih =>
      obtain ⟨hFirst, hRest⟩ := List.forall_mem_cons.mp h
      obtain ⟨name, call⟩ := element
      rw [bindAggregates, bound, List.foldl_cons]
      refine (Aggregate.gives_eval hFirst).bind ?_
      cases call.result value rows with
      | none => exact ih hRest
      | some term => exact ih hRest

theorem get?_bound_of_not_mem {start : Solution} {elements : List (String × Aggregate)} {name : String}
    (hName : name ∉ elements.map (·.1)) :
    (bound value rows start elements).get? name = start.get? name := by
  induction elements generalizing start with
  | nil => rfl
  | cons element rest ih =>
      obtain ⟨hFirst, hRest⟩ : ¬name = element.1 ∧ name ∉ rest.map (·.1) := by simpa using hName
      rw [bound, List.foldl_cons]
      refine (ih hRest).trans ?_
      cases element.2.result value rows with
      | none => rfl
      | some term => rw [Solution.get?_insert, if_neg hFirst]

theorem get?_bound {start : Solution} {elements : List (String × Aggregate)}
    (hNodup : (elements.map (·.1)).Nodup) {element : String × Aggregate} (hElement : element ∈ elements) :
    (bound value rows start elements).get? element.1 =
      (element.2.result value rows).or (start.get? element.1) := by
  induction elements generalizing start with
  | nil => exact absurd hElement List.not_mem_nil
  | cons first rest ih =>
      obtain ⟨hFirst, hRest⟩ := List.nodup_cons.mp hNodup
      rw [bound, List.foldl_cons]
      rcases List.mem_cons.mp hElement with rfl | hOther
      · refine (get?_bound_of_not_mem hFirst).trans ?_
        cases element.2.result value rows with
        | none => rfl
        | some term => simp
      · refine (ih hRest hOther).trans ?_
        have hNe : element.1 ≠ first.1 := fun hSame =>
          hFirst (List.mem_map.mpr ⟨element, hOther, hSame⟩)
        cases first.2.result value rows with
        | none => rfl
        | some term => rw [Solution.get?_insert, if_neg hNe]

/-- The row of a group, by what the arguments of the aggregates come to. -/
def answer (g : Grouping) (value : Expr → Solution → Option Term) (seed : Solution)
    (group : GroupKey × List Solution) : Solution :=
  bound value group.2 (g.bindKey seed group.1) g.elements

theorem gives_groups
    (h : ∀ element ∈ g.elements, ∀ arg ∈ element.2.arg, ∀ row ∈ rows,
      arg.Comes clocks around row (value arg row)) :
    Timed.Gives clocks ((g.groups rows).mapM (g.row around seed))
      ((g.groups rows).map (g.answer value seed)) :=
  .mapM fun _ hGroup => gives_bindAggregates fun element hElement arg hArg row hRow =>
    h element hElement arg hArg row (key_of_mem_group hGroup hRow).1

/-! What comes of an input that is read. -/

theorem mapM_ok (rows : List Solution) :
    (rows.map Except.ok : List Item).mapM id = (.ok rows : Except QueryError (List Solution)) := by
  induction rows with
  | nil => rfl
  | cons row rest ih =>
      rw [List.map_cons, List.mapM_cons, ih]
      rfl

theorem mapM_error (rows : List Solution) (error : QueryError) (rest : List Item) :
    (rows.map Except.ok ++ .error error :: rest : List Item).mapM id =
      (.error error : Except QueryError (List Solution)) := by
  induction rows with
  | nil => rfl
  | cons row others ih =>
      rw [List.map_cons, List.cons_append, List.mapM_cons, ih]
      rfl

/-- The rows before the end, or the first failure, go into groups. -/
theorem collect_append (rows : List Solution) (groups : List (GroupKey × List Solution))
    (rest : List Item) :
    g.collect groups (rows.map .ok ++ rest) =
      g.collect (rows.foldl (fun groups row => addRow (g.key row) row groups) groups) rest := by
  induction rows generalizing groups with
  | nil => rfl
  | cons row others ih => exact ih _

/-- An input ends without a failure or with a first one. -/
theorem exists_input_eq (input : List Item) :
    (∃ rows : List Solution, input = rows.map .ok) ∨
      ∃ (rows : List Solution) (error : QueryError) (rest : List Item),
        input = rows.map .ok ++ .error error :: rest := by
  induction input with
  | nil => exact .inl ⟨[], rfl⟩
  | cons item rest ih =>
      cases item with
      | error error => exact .inr ⟨[], error, rest, rfl⟩
      | ok row =>
          obtain ⟨rows, rfl⟩ | ⟨rows, error, behind, rfl⟩ := ih
          · exact .inl ⟨row :: rows, rfl⟩
          · exact .inr ⟨row :: rows, error, behind, rfl⟩

/-- However the evaluation ends, the input is closed. -/
theorem evalOn_eq (input : List Item) (clock : Clock) :
    g.evalOn around seed input clock =
      ((((g.eval around seed input).run clock).1, .items []), ((g.eval around seed input).run clock).2) := by
  obtain ⟨rows, rfl⟩ | ⟨rows, error, rest, rfl⟩ := exists_input_eq input
  · have hCollect := collect_append (g := g) rows [] []
    rw [List.append_nil] at hCollect
    rw [evalOn, hCollect, eval, mapM_ok]
    rfl
  · rw [evalOn, collect_append, eval, mapM_error]
    rfl

/-- Counts whose sum is in the range of an integer term add up to it. -/
theorem sum_toInt_ofNat {counts : List Nat} (h : counts.sum ≤ 9223372036854775807) :
    ((counts.map Int64.ofNat).map Int64.toInt).sum = counts.sum := by
  induction counts with
  | nil => rfl
  | cons count rest ih =>
      rw [List.sum_cons] at h
      simp only [List.map_cons, List.sum_cons, ih (Nat.le_of_add_left_le h)]
      rw [Int64.toInt_ofNat_of_lt (Nat.lt_of_le_of_lt (Nat.le_of_add_right_le h) (by decide)), Nat.cast_add]

/-- Grouping takes its input apart. If no failure is in it, there is one row for each key, in the order in which
the keys appear first, and one for no rows if there are no grouping names. Each row of the input is in one
group, that of its key, so the counts add up to their number. The row of a group binds the key and what the
aggregates come to, over what the seed binds; and for a count, a least or a greatest value the order of the
rows of the group makes no difference. If there is a failure in the input, it is the outcome. In both cases
the input is closed. -/
theorem evalOn_partitions {clock : Clock} (hClock : clock ∈ clocks)
    (hNodup : (g.elements.map (·.1)).Nodup) (hApart : ∀ name ∈ g.elements.map (·.1), name ∉ g.names)
    (hComes : ∀ element ∈ g.elements, ∀ arg ∈ element.2.arg, ∀ row ∈ rows,
      arg.Comes clocks around row (value arg row)) :
    (g.groups rows = (if rows = [] ∧ g.names = [] then [([], [])]
      else (rows.map g.key).eraseDups.map fun key => (key, rows.filter (g.key · = key)))) ∧
    ((g.groups rows).flatMap (·.2)).Perm rows ∧
    (∃ results, (g.evalOn around seed (rows.map .ok) clock).1 = (.ok results, .items []) ∧
      ((g.eval around seed (rows.map .ok)).run clock).1 = .ok results ∧
      List.Forall₂
        (fun group row =>
          (∀ source ∈ group.2, ∀ name ∈ g.names, row.get? name = (source.get? name).or (seed.get? name)) ∧
          (∀ element ∈ g.elements,
            row.get? element.1 = (element.2.result value group.2).or (seed.get? element.1)) ∧
          ∀ name, name ∉ g.names → name ∉ g.elements.map (·.1) → row.get? name = seed.get? name)
        (g.groups rows) results ∧
      ∀ element ∈ g.elements, element.2.arg = none → element.2.distinct = false →
        ∃ counts : List Int64,
          List.Forall₂ (fun row count => row.get? element.1 = some (.integer count)) results counts ∧
          (rows.length ≤ 9223372036854775807 → (counts.map Int64.toInt).sum = rows.length)) ∧
    (∀ group ∈ g.groups rows, ∀ element ∈ g.elements, element.2.IsOrderFree →
      ∀ order : List Solution, order.Perm group.2 → ∀ start ∈ clocks,
        ((element.2.eval around order).run start).1 = .ok (element.2.result value group.2)) ∧
    ∀ (before : List Solution) (error : QueryError) (rest : List Item) (start : Clock),
      g.evalOn around seed (before.map .ok ++ .error error :: rest) start =
        ((.error error, .items []), start) := by
  have hEval : ((g.eval around seed (rows.map .ok)).run clock).1 =
      .ok ((g.groups rows).map (g.answer value seed)) := by
    rw [eval, mapM_ok]
    exact (gives_groups hComes clock hClock).1
  have hElement {element : String × Aggregate} (hMem : element ∈ g.elements)
      (group : GroupKey × List Solution) : (g.answer value seed group).get? element.1 =
        (element.2.result value group.2).or (seed.get? element.1) := by
    rw [answer, get?_bound hNodup hMem, get?_bindKey_of_not_mem]
    exact hApart element.1 (List.mem_map_of_mem hMem)
  refine ⟨groups_eq rows, perm_groups g rows, ⟨_, ?_, hEval, ?_, ?_⟩, ?_, ?_⟩
  · rw [evalOn_eq, hEval]
  · rw [List.forall₂_map_right_iff, List.forall₂_same]
    refine fun group hGroup => ⟨fun source hSource name hName => ?_,
      fun element hMem => hElement hMem group, fun name hName hOther => ?_⟩
    · rw [answer, get?_bound_of_not_mem fun hMem => hApart name hMem hName,
        ← (key_of_mem_group hGroup hSource).2, get?_bindKey_key seed source name, if_pos hName]
    · rw [answer, get?_bound_of_not_mem hOther, get?_bindKey_of_not_mem seed group.1 hName]
  · intro element hMem hArg hAll
    refine ⟨((g.groups rows).map (·.2.length)).map .ofNat, ?_, fun hFits => ?_⟩
    · rw [List.forall₂_map_left_iff, List.forall₂_map_right_iff, List.forall₂_map_right_iff,
        List.forall₂_same]
      intro group _
      rw [hElement hMem group, Aggregate.result, hArg, hAll]
      rfl
    · have hCounts : ((g.groups rows).map (·.2.length)).sum = rows.length := by
        rw [← (perm_groups g rows).length_eq, List.length_flatMap]
      rw [sum_toInt_ofNat (hCounts ▸ hFits), hCounts]
  · intro group hGroup element hMem hFree order hOrder start hStart
    have hGives : Timed.Gives clocks (element.2.eval around order) (element.2.result value order) :=
      Aggregate.gives_eval fun arg hArg row hRow =>
        hComes element hMem arg hArg row (key_of_mem_group hGroup (hOrder.mem_iff.mp hRow)).1
    rw [(hGives start hStart).1, Aggregate.result_eq_of_perm hFree hOrder]
  · intro before error rest start
    rw [evalOn, collect_append]
    rfl

/-- Two rows of three have the same key, the one between them none. -/
theorem evalOn_partitions_unbound_key :
    let g : Grouping :=
      ⟨["k"], [("n", ⟨.count, false, none⟩), ("m", ⟨.max, true, some (.var "v")⟩)]⟩
    let around : Surroundings := ⟨fun _ _ => return .ok none⟩
    let rows : List Solution := [.ofList [("k", .iri "a"), ("v", .integer 1)],
      .ofList [("v", .integer 2)], .ofList [("k", .iri "a"), ("v", .integer 3)]]
    let value (x : Expr) (row : Solution) : Option Term :=
      match x with
      | .var name => row.get? name
      | _ => none
    (g.elements.map (·.1)).Nodup ∧ (∀ name ∈ g.elements.map (·.1), name ∉ g.names) ∧
      (∀ element ∈ g.elements, ∀ arg ∈ element.2.arg, ∀ row ∈ rows,
        arg.Comes Set.univ around row (value arg row)) ∧
      (g.evalOn around .empty (rows.map .ok) (.starting 0)).1 = (.ok
        [.ofList [("k", .iri "a"), ("m", .integer 3), ("n", .integer 2)],
          .ofList [("m", .integer 2), ("n", .integer 1)]], .items []) ∧
      g.evalOn around .empty [.ok (.ofList [("v", .integer 1)]), .error (.interrupted "stop"), .ok .empty] (.starting 0) =
        ((.error (.interrupted "stop"), .items []), .starting 0) := by
  intro g around rows value
  have hNodup : (g.elements.map (·.1)).Nodup := by decide
  have hApart : ∀ name ∈ g.elements.map (·.1), name ∉ g.names := by decide
  have hComes : ∀ element ∈ g.elements, ∀ arg ∈ element.2.arg, ∀ row ∈ rows,
      arg.Comes Set.univ around row (value arg row) := by
    intro element hElement arg hArg row _
    rcases List.mem_cons.mp hElement with rfl | hLast
    · cases hArg
    · obtain rfl := List.mem_singleton.mp hLast
      cases hArg
      exact Expr.comes_var "v"
  obtain ⟨-, -, ⟨results, hResults, -⟩, -, hFails⟩ := @evalOn_partitions Set.univ around g .empty rows
    value (.starting 0) (Set.mem_univ _) hNodup hApart hComes
  have hRows : (g.evalOn around .empty (rows.map .ok) (.starting 0)).1.1.toOption =
      some [.ofList [("k", .iri "a"), ("m", .integer 3), ("n", .integer 2)],
        .ofList [("m", .integer 2), ("n", .integer 1)]] := by decide +kernel
  rw [hResults] at hRows
  obtain rfl := Option.some.inj hRows
  exact ⟨hNodup, hApart, hComes, hResults,
    hFails [.ofList [("v", .integer 1)]] (.interrupted "stop") [.ok .empty] (.starting 0)⟩

end Grouping

end SolutionFlow
