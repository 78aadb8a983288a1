import Mathlib.Data.List.Perm.Subperm
import SolutionFlow.Spill.Sorter

/-! What a sorter gives back. Of keys that come once each, in whatever order, it gives the first ones in
their order, up to its limit: a key that it drops has as many smaller keys before it as the limit says,
and none of these is lost without leaving as many others. -/
namespace SolutionFlow

section

variable {κ : Type} [Ord κ]

/-- The keys are in increasing order, whichever of two is compared with the other. -/
def Ascending (order : List κ) : Prop :=
  order.Pairwise fun a b => compare a b = .lt ∧ compare b a = .gt

/-- A key comes before another one, whichever of the two is compared with the other. -/
def Precedes (a b : κ) : Prop := compare a b = .lt ∧ compare b a = .gt

/-- How many keys go before a key. -/
def countBefore (key : κ) (keys : List κ) : Nat := keys.countP fun k => compare k key == .lt

/-- Some keys stand for more keys if none of these is missing that has less than `limit` keys before
it. -/
def Represents (limit : Nat) (kept added : List κ) : Prop :=
  ∀ key ∈ added, key ∈ kept ∨ limit ≤ countBefore key kept

variable {order keys kept added : List κ} {key : κ} {limit : Nat}

theorem Ascending.ne (h : Ascending (key :: order)) : ∀ k ∈ order, k ≠ key := by
  rintro k hMem rfl
  obtain ⟨hLess, hGreater⟩ := (List.pairwise_cons.mp h).1 k hMem
  simp [hLess] at hGreater

theorem Ascending.nodup (h : Ascending order) : order.Nodup := by
  induction order with
  | nil => exact List.nodup_nil
  | cons first rest ih =>
      exact List.nodup_cons.mpr
        ⟨fun hMem => h.ne first hMem rfl, ih (List.pairwise_cons.mp h).2⟩

/-- Of two keys in an order, the one that has the lower place comes first. -/
theorem Ascending.precedes_iff (h : Ascending order) {i j : Nat} (hI : i < order.length)
    (hJ : j < order.length) : Precedes order[i] order[j] ↔ i < j := by
  have hPlaces := List.pairwise_iff_getElem.mp h
  refine ⟨fun hLess => ?_, hPlaces i j hI hJ⟩
  rcases Nat.lt_trichotomy i j with hLt | rfl | hGt
  · exact hLt
  · have hNever := hLess.1.symm.trans hLess.2
    simp at hNever
  · have hNever := hLess.1.symm.trans (hPlaces j i hJ hI hGt).2
    simp at hNever

/-- Two keys in an order come one before the other. -/
theorem Ascending.precedes_or (h : Ascending order) {a b : κ} (hA : a ∈ order) (hB : b ∈ order)
    (hNe : a ≠ b) : Precedes a b ∨ Precedes b a := by
  obtain ⟨i, hI, rfl⟩ := List.getElem_of_mem hA
  obtain ⟨j, hJ, rfl⟩ := List.getElem_of_mem hB
  rw [h.precedes_iff hI hJ, h.precedes_iff hJ hI]
  exact Nat.lt_or_gt_of_ne fun hSame => hNe (by simp [hSame])

theorem Ascending.precedes_trans (h : Ascending order) {a b c : κ} (hA : a ∈ order) (hB : b ∈ order)
    (hC : c ∈ order) (hFirst : Precedes a b) (hNext : Precedes b c) : Precedes a c := by
  obtain ⟨i, hI, rfl⟩ := List.getElem_of_mem hA
  obtain ⟨j, hJ, rfl⟩ := List.getElem_of_mem hB
  obtain ⟨k, hK, rfl⟩ := List.getElem_of_mem hC
  rw [h.precedes_iff] at hFirst hNext ⊢
  exact Nat.lt_trans hFirst hNext

/-- A key goes in front of keys that it precedes. -/
theorem Ascending.cons_sublist (h : Ascending order) (hMem : key ∈ order) (hKeys : keys.Sublist order)
    (hLess : ∀ k ∈ keys, Precedes key k) : (key :: keys).Sublist order := by
  induction order generalizing keys with
  | nil => simp at hMem
  | cons first rest ih =>
      obtain ⟨hFirst, hBehind⟩ := List.pairwise_cons.mp h
      rcases List.mem_cons.mp hMem with rfl | hLater
      · refine .cons_cons key ((List.sublist_cons_iff.mp hKeys).resolve_right ?_)
        rintro ⟨_, rfl, -⟩
        have hSelf := hLess key List.mem_cons_self
        have hNever := hSelf.1.symm.trans hSelf.2
        simp at hNever
      · rcases List.sublist_cons_iff.mp hKeys with hSub | ⟨_, rfl, -⟩
        · exact (ih hBehind hLater hSub hLess).cons first
        · have hNever := (hLess first List.mem_cons_self).1.symm.trans (hFirst key hLater).2
          simp at hNever

/-- The keys of an order determine it. -/
theorem Ascending.eq_of_perm {other : List κ} (h : Ascending order) (hOther : Ascending other)
    (hPerm : order.Perm other) : order = other := by
  refine hPerm.eq_of_pairwise (fun a b _ _ hAB hBA => ?_) h hOther
  have hNever := hAB.1.symm.trans hBA.2
  simp at hNever

/-- A key more leaves the others in their order. -/
theorem Ascending.sublist_of_perm {more : List κ} (h : Ascending order) (hMore : Ascending more)
    (hPerm : more.Perm (key :: order)) : order.Sublist more := by
  obtain ⟨before, after, rfl⟩ := List.append_of_mem (hPerm.mem_iff.mpr List.mem_cons_self)
  have hLess : (before ++ after).Sublist (before ++ key :: after) :=
    (List.sublist_cons_self key after).append_left before
  have hRest : (before ++ after).Perm order := (List.perm_middle.symm.trans hPerm).cons_inv
  rwa [Ascending.eq_of_perm (hMore.sublist hLess) h hRest] at hLess

theorem Represents.perm {other : List κ} (h : Represents limit kept added) (hPerm : kept.Perm other) :
    Represents limit other added := by
  intro key hMem
  unfold countBefore
  rw [← hPerm.mem_iff, ← hPerm.countP_eq]
  exact h key hMem

theorem Represents.cons (h : Represents limit kept added) (key : κ) :
    Represents limit (key :: kept) (key :: added) := by
  intro other hMem
  rcases List.mem_cons.mp hMem with rfl | hOld
  · exact .inl List.mem_cons_self
  · exact (h other hOld).imp (List.mem_cons_of_mem key) fun hMany =>
      Nat.le_trans hMany (List.sublist_cons_self key kept).countP_le

/-- What represents all keys of an order begins as the order does. -/
theorem Represents.take_eq (h : Represents limit kept order) (hOrder : Ascending order)
    (hKept : kept.Sublist order) : kept.take limit = order.take limit := by
  induction hKept generalizing limit with
  | slnil => rfl
  | cons first hRest ih =>
      rename_i kept rest
      obtain ⟨hFirst, hBehind⟩ := List.pairwise_cons.mp hOrder
      obtain hMem | hMany := h first List.mem_cons_self
      · exact absurd rfl (hOrder.ne first (hRest.subset hMem))
      · have hNone : countBefore first kept = 0 := by
          rw [countBefore, List.countP_eq_zero]
          intro k hMem
          simp [(hFirst k (hRest.subset hMem)).2]
        obtain rfl : limit = 0 := by omega
        simp
  | cons_cons first hRest ih =>
      rename_i kept rest
      cases limit with
      | zero => simp
      | succ limit =>
          obtain ⟨hFirst, hBehind⟩ := List.pairwise_cons.mp hOrder
          rw [List.take_succ_cons, List.take_succ_cons, ih _ hBehind]
          intro key hMem
          refine (h key (List.mem_cons_of_mem first hMem)).imp (fun hKept => ?_) fun hMany => ?_
          · exact (List.mem_cons.mp hKept).resolve_left (hOrder.ne key hMem)
          · simpa [countBefore, (hFirst key hMem).1] using hMany

theorem countBefore_append (key : κ) (keys other : List κ) :
    countBefore key (keys ++ other) = countBefore key keys + countBefore key other :=
  List.countP_append

/-- The keys before another one come first in an order. -/
theorem countBefore_take (hOrder : Ascending order) (hKeys : keys.Sublist order)
    (hMem : key ∈ order) (hNew : key ∉ keys) (limit : Nat) :
    countBefore key (keys.take limit) = min limit (countBefore key keys) := by
  induction hKeys generalizing limit with
  | slnil => simp [countBefore]
  | cons first hRest ih =>
      rename_i keys rest
      obtain ⟨hFirst, hBehind⟩ := List.pairwise_cons.mp hOrder
      rcases List.mem_cons.mp hMem with rfl | hLater
      · have hNone (l : List κ) (hSub : l.Sublist rest) : countBefore key l = 0 := by
          rw [countBefore, List.countP_eq_zero]
          intro k hK
          simp [(hFirst k (hSub.subset hK)).2]
        rw [hNone _ ((List.take_sublist _ _).trans hRest), hNone _ hRest, Nat.min_zero]
      · exact ih hBehind hLater hNew limit
  | cons_cons first hRest ih =>
      obtain ⟨hFirst, hBehind⟩ := List.pairwise_cons.mp hOrder
      rw [List.mem_cons, not_or] at hNew
      have hLater := (List.mem_cons.mp hMem).resolve_left hNew.1
      cases limit with
      | zero => simp [countBefore]
      | succ limit =>
          have hTake := ih hBehind hLater hNew.2 limit
          simp only [countBefore, List.take_succ_cons, List.countP_cons, (hFirst key hLater).1,
            beq_self_eq_true, ↓reduceIte] at hTake ⊢
          omega

/-- Without the last keys in an order, enough of the first ones given, no key loses its representation. -/
theorem Represents.drop {held other : List κ} (h : Represents limit (held ++ other) order)
    (hOrder : Ascending order) (hHeld : held.Sublist order) :
    Represents limit (held.take limit ++ other) order := by
  intro key hMem
  simp only [countBefore_append, List.mem_append]
  by_cases hOld : key ∈ held
  · rw [← List.take_append_drop limit held] at hOld hHeld
    rcases List.mem_append.mp hOld with hTaken | hDropped
    · exact .inl (.inl hTaken)
    · have hBefore := (List.pairwise_append.mp (hOrder.sublist hHeld)).2.2
      have hAll : countBefore key (held.take limit) = (held.take limit).length := by
        rw [countBefore, List.countP_eq_length]
        intro k hK
        simp [(hBefore k hK key hDropped).1]
      have hLong := List.length_pos_of_mem hDropped
      rw [List.length_drop] at hLong
      rw [hAll, List.length_take]
      exact .inr (by omega)
  · rw [countBefore_take hOrder hHeld hMem hOld]
    have hKey := h key hMem
    simp only [countBefore_append, List.mem_append, hOld, false_or] at hKey
    exact hKey.imp .inr fun hMany => by omega

end

namespace Counted

variable {κ : Type}

/-- Keys that occur once each. -/
def ofKeys (keys : List κ) : Counted κ := keys.map (·, 1)

/-- What goes beyond the limit is dropped from the front. -/
theorem dropExcess_ofKeys (limit : Nat) (keys : List κ) :
    dropExcess limit (ofKeys keys) keys.length =
      (ofKeys (keys.drop (keys.length - limit)), min keys.length limit) := by
  induction keys with
  | nil => simp [ofKeys, dropExcess]
  | cons key rest ih =>
      simp only [ofKeys, List.map_cons, dropExcess, List.length_cons] at ih ⊢
      split
      next hFits =>
        have hNone : rest.length + 1 - limit = 0 := by omega
        rw [hNone, Nat.min_eq_left hFits]
        rfl
      next hMany =>
        have hOne : rest.length + 1 - limit = rest.length - limit + 1 := by omega
        rw [if_neg (by omega), Nat.add_sub_cancel, ih, hOne, List.drop_succ_cons]
        congr 1
        omega

variable [Ord κ] {order keys : List κ} {key : κ}

/-- A new key finds its place among keys in order. -/
theorem exists_add_ofKeys (hOrder : Ascending order) (hKeys : keys.Sublist order)
    (hKey : key ∈ order) (hNew : key ∉ keys) :
    ∃ more, add key 1 (ofKeys keys) = ofKeys more ∧ more.Sublist order ∧
      more.Perm (key :: keys) := by
  induction hKeys with
  | slnil => simp at hKey
  | cons first hRest ih =>
      rename_i keys rest
      obtain ⟨hFirst, hBehind⟩ := List.pairwise_cons.mp hOrder
      rcases List.mem_cons.mp hKey with rfl | hLater
      · refine ⟨key :: keys, ?_, hRest.cons_cons key, .refl _⟩
        cases keys with
        | nil => rfl
        | cons k keys =>
            have hLess := (hFirst k (hRest.subset List.mem_cons_self)).1
            simp [ofKeys, add, hLess]
      · obtain ⟨more, hAdd, hSub, hPerm⟩ := ih hBehind hLater hNew
        exact ⟨more, hAdd, hSub.cons first, hPerm⟩
  | cons_cons first hRest ih =>
      rename_i keys rest
      obtain ⟨hFirst, hBehind⟩ := List.pairwise_cons.mp hOrder
      rw [List.mem_cons, not_or] at hNew
      have hLater := (List.mem_cons.mp hKey).resolve_left hNew.1
      obtain ⟨more, hAdd, hSub, hPerm⟩ := ih hBehind hLater hNew.2
      refine ⟨first :: more, ?_, hSub.cons_cons first,
        (hPerm.cons first).trans (.swap key first keys)⟩
      simp only [ofKeys, List.map_cons, add, (hFirst key hLater).2] at hAdd ⊢
      rw [hAdd]

theorem popLeast_eq_none {sources : List (List κ)} (h : sources.flatten = []) :
    popLeast (sources.map ofKeys) = none := by
  induction sources with
  | nil => rfl
  | cons keys others ih =>
      obtain ⟨rfl, hOthers⟩ := List.append_eq_nil_iff.mp h
      simp only [List.map_cons, ofKeys, List.map_nil, popLeast] at ih ⊢
      rw [ih hOthers, Option.map_none]

/-- From lists of different keys, the first key in the order is taken. -/
theorem exists_popLeast (hOrder : Ascending order) {sources : List (List κ)}
    (hSources : ∀ keys ∈ sources, keys.Sublist order) (hNodup : sources.flatten.Nodup)
    (hSome : sources.flatten ≠ []) :
    ∃ (key : κ) (rest : List (List κ)),
      popLeast (sources.map ofKeys) = some ((key, 1), rest.map ofKeys) ∧
      (key :: rest.flatten).Perm sources.flatten ∧ (∀ keys ∈ rest, keys.Sublist order) ∧
      ∀ k ∈ rest.flatten, Precedes key k := by
  induction sources with
  | nil => simp at hSome
  | cons keys others ih =>
      obtain ⟨hKeys, hOthers⟩ := List.forall_mem_cons.mp hSources
      obtain ⟨-, hDistinct, hApart⟩ := List.nodup_append.mp hNodup
      have hIn {k : κ} (hMem : k ∈ others.flatten) : k ∈ order := by
        obtain ⟨list, hList, hK⟩ := List.mem_flatten.mp hMem
        exact (hOthers list hList).subset hK
      cases keys with
      | nil =>
          obtain ⟨key, rest, hPop, hPerm, hRest, hFirst⟩ := ih hOthers hDistinct (by simpa using hSome)
          refine ⟨key, [] :: rest, ?_, by simpa using hPerm,
            List.forall_mem_cons.mpr ⟨List.nil_sublist _, hRest⟩, by simpa using hFirst⟩
          rw [List.map_cons, ofKeys, List.map_nil, popLeast, hPop]
          rfl
      | cons first later =>
          obtain ⟨hBefore, -⟩ := List.pairwise_cons.mp (hOrder.sublist hKeys)
          have hLater := (List.sublist_cons_self first later).trans hKeys
          have hFirstIn : first ∈ order := hKeys.subset List.mem_cons_self
          by_cases hNone : others.flatten = []
          · refine ⟨first, later :: others, ?_, .refl _, List.forall_mem_cons.mpr ⟨hLater, hOthers⟩, ?_⟩
            · simp [popLeast, ofKeys, popLeast_eq_none hNone]
            · exact fun k hMem => hBefore k (by simpa [hNone] using hMem)
          · obtain ⟨key, rest, hPop, hPerm, hRest, hFirst⟩ := ih hOthers hDistinct hNone
            have hKey : key ∈ others.flatten := hPerm.subset List.mem_cons_self
            have hNe : first ≠ key := hApart first List.mem_cons_self key hKey
            obtain hLess | hMore := hOrder.precedes_or hFirstIn (hIn hKey) hNe
            · refine ⟨first, later :: others, ?_, .refl _,
                List.forall_mem_cons.mpr ⟨hLater, hOthers⟩, fun k hMem => ?_⟩
              · simp [popLeast, ofKeys, hPop, hLess.1]
              · rcases List.mem_append.mp hMem with hSame | hOther
                · exact hBefore k hSame
                · rcases List.mem_cons.mp (hPerm.symm.subset hOther) with rfl | hBehind
                  · exact hLess
                  · exact hOrder.precedes_trans hFirstIn (hIn hKey) (hIn hOther) hLess (hFirst k hBehind)
            · refine ⟨key, (first :: later) :: rest, ?_, ?_,
                List.forall_mem_cons.mpr ⟨hKeys, hRest⟩, fun k hMem => ?_⟩
              · simp [popLeast, ofKeys, hPop, hMore.2]
              · exact List.perm_middle.symm.trans (hPerm.append_left (first :: later))
              · rcases List.mem_append.mp hMem with hSame | hOther
                · rcases List.mem_cons.mp hSame with rfl | hBehind
                  · exact hMore
                  · exact hOrder.precedes_trans (hIn hKey) hFirstIn (hLater.subset hBehind) hMore
                      (hBefore k hBehind)
                · exact hFirst k hOther

/-- Nothing is added to the count of a key that does not come again. -/
theorem gather_ofKeys (hOrder : Ascending order) {sources : List (List κ)}
    (hSources : ∀ keys ∈ sources, keys.Sublist order) (hNodup : sources.flatten.Nodup)
    (hFirst : ∀ k ∈ sources.flatten, Precedes key k) (count : Nat) :
    gather key count (sources.map ofKeys) = (count, sources.map ofKeys) := by
  by_cases hNone : sources.flatten = []
  · exact gather_of_none (popLeast_eq_none hNone) key count
  · obtain ⟨next, rest, hPop, hPerm, -, -⟩ := exists_popLeast hOrder hSources hNodup hNone
    rw [gather_of_some hPop, if_neg]
    simp [(hFirst next (hPerm.subset List.mem_cons_self)).2]

/-- Lists of different keys are merged in their order. -/
theorem exists_mergeAll (hOrder : Ascending order) {sources : List (List κ)}
    (hSources : ∀ keys ∈ sources, keys.Sublist order) (hNodup : sources.flatten.Nodup) :
    ∃ all : List κ, all.Sublist order ∧ all.Perm sources.flatten ∧
      ∀ limit, mergeAll limit (sources.map ofKeys) = ofKeys (all.take limit) := by
  generalize hLength : sources.flatten.length = length
  induction length generalizing sources with
  | zero =>
      have hNone : sources.flatten = [] := List.eq_nil_of_length_eq_zero hLength
      refine ⟨[], List.nil_sublist _, by rw [hNone], fun limit => ?_⟩
      rw [mergeAll_of_none (popLeast_eq_none hNone), List.take_nil]
      rfl
  | succ length ih =>
      have hSome : sources.flatten ≠ [] := fun hNone => by simp [hNone] at hLength
      obtain ⟨key, rest, hPop, hPerm, hRest, hFirst⟩ := exists_popLeast hOrder hSources hNodup hSome
      have hKeyIn : key ∈ order := by
        obtain ⟨keys, hKeys, hMem⟩ := List.mem_flatten.mp (hPerm.subset List.mem_cons_self)
        exact (hSources keys hKeys).subset hMem
      obtain ⟨all, hAll, hAllPerm, hMerge⟩ := ih hRest
        (List.nodup_cons.mp (hPerm.nodup_iff.mpr hNodup)).2
        (by simpa [hLength] using hPerm.length_eq)
      have hGather : gather key 1 (rest.map ofKeys) = (1, rest.map ofKeys) :=
        gather_ofKeys hOrder hRest (List.nodup_cons.mp (hPerm.nodup_iff.mpr hNodup)).2 hFirst 1
      refine ⟨key :: all, hOrder.cons_sublist hKeyIn hAll fun k hMem =>
        hFirst k (hAllPerm.subset hMem), (hAllPerm.cons key).trans hPerm, fun limit => ?_⟩
      cases limit with
      | zero => rw [mergeAll_zero, List.take_zero, ofKeys, List.map_nil]
      | succ limit =>
          have hOne : min 1 (limit + 1) = 1 := by omega
          rw [mergeAll_of_some (Nat.add_one_ne_zero limit) hPop, hGather, hOne, Nat.add_sub_cancel, hMerge,
            List.take_succ_cons]
          rfl

end Counted

namespace Sorter

open Counted

variable {κ : Type} {s : Sorter κ}

/-- The greatest keys are the ones to be taken away. -/
theorem trim_eq {held : List κ} (hHeld : s.held = ofKeys held) (hSize : s.size = held.length) :
    s.trim = { s with
      held := ofKeys (held.take s.limit)
      size := (held.take s.limit).length } := by
  have hReverse : s.held.reverse = ofKeys held.reverse := by simp [hHeld, ofKeys]
  have hLength : s.size = held.reverse.length := by simp [hSize]
  have hTake : held.take (held.length - (held.length - s.limit)) = held.take s.limit := by
    rw [List.take_eq_take_iff]
    omega
  rw [Sorter.trim, hReverse, hLength, dropExcess_ofKeys, List.drop_reverse, List.length_reverse, hTake]
  simp [ofKeys, Nat.min_comm]

variable [Ord κ] {order order' : List κ} {key : κ}

/-- An open sorter that has been given the keys of an order, once each, and has some of them left in
memory and in runs. -/
structure Holds (order : List κ) (s : Sorter κ) (held : List κ) (runs : List (List κ)) : Prop where
  isOpen : s.closed = false
  canWrite : s.options.canWrite = true
  held_eq : s.held = ofKeys held
  size_eq : s.size = held.length
  runs_eq : s.runs = runs.map ofKeys
  sublist : held.Sublist order
  runs_sublist : ∀ run ∈ runs, run.Sublist order
  nodup : (held ++ runs.flatten).Nodup
  represents : Represents s.limit (held ++ runs.flatten) order

theorem Holds.kept {held : List κ} {runs : List (List κ)} (h : s.Holds order held runs) :
    ∀ key ∈ held ++ runs.flatten, key ∈ order := by
  intro key hMem
  rcases List.mem_append.mp hMem with hHeld | hRun
  · exact h.sublist.subset hHeld
  · obtain ⟨run, hIn, hKey⟩ := List.mem_flatten.mp hRun
    exact (h.runs_sublist run hIn).subset hKey

/-- An open sorter that has been given the keys of an order, and can give back the first of them. -/
def Collects (s : Sorter κ) (order : List κ) : Prop := ∃ held runs, s.Holds order held runs

theorem collects_new (limit : Nat) {options : SpillOptions} (hWrite : options.canWrite = true) :
    (new limit options : Sorter κ).Collects [] :=
  ⟨[], [], rfl, hWrite, rfl, rfl, rfl, .slnil, by simp, by simp, by simp [Represents]⟩

/-- Writing a run changes only where keys are. -/
theorem Collects.spill (h : s.Collects order) :
    ∃ s', s.spill = (.ok (), s') ∧ s'.limit = s.limit ∧ s'.Collects order := by
  obtain ⟨held, runs, h⟩ := h
  unfold Sorter.spill
  split
  · exact ⟨s, rfl, rfl, held, runs, h⟩
  · rw [if_pos h.canWrite]
    have hPerm : (held ++ runs.flatten).Perm ([] ++ (runs ++ [held]).flatten) := by
      simpa using List.perm_append_comm
    refine ⟨_, rfl, rfl, [], runs ++ [held], h.isOpen, h.canWrite, rfl, rfl, ?_,
      List.nil_sublist order, ?_, hPerm.nodup_iff.mp h.nodup, h.represents.perm hPerm⟩
    · simp [h.runs_eq, h.held_eq]
    · exact List.forall_mem_append.mpr ⟨h.runs_sublist, List.forall_mem_singleton.mpr h.sublist⟩

/-- What is over the limit in memory can go. -/
theorem Holds.trim {held : List κ} {runs : List (List κ)} (h : s.Holds order held runs)
    (hOrder : Ascending order) : s.trim.Collects order := by
  have hLess : (held.take s.limit ++ runs.flatten).Sublist (held ++ runs.flatten) :=
    (List.take_sublist _ _).append_right _
  rw [trim_eq h.held_eq h.size_eq]
  exact ⟨held.take s.limit, runs, h.isOpen, h.canWrite, rfl, rfl, h.runs_eq,
    (List.take_sublist _ _).trans h.sublist, h.runs_sublist, h.nodup.sublist hLess,
    h.represents.drop hOrder h.sublist⟩

/-- With a key more in memory, as much as is over the limit there can go. -/
theorem Collects.insert (h : s.Collects order) (hOrder : Ascending order) (hOrder' : Ascending order')
    (hPerm : order'.Perm (key :: order)) :
    let t := trim { s with held := Counted.add key 1 s.held, size := s.size + 1 }
    t.Collects order' ∧ t.size ≤ s.limit := by
  obtain ⟨held, runs, h⟩ := h
  have hKey : key ∈ order' := hPerm.mem_iff.mpr List.mem_cons_self
  have hNew : key ∉ order := (List.nodup_cons.mp (hPerm.nodup_iff.mp hOrder'.nodup)).1
  have hOld := hOrder.sublist_of_perm hOrder' hPerm
  have hFresh : key ∉ held ++ runs.flatten := fun hMem => hNew (h.kept key hMem)
  obtain ⟨more, hAdd, hMore, hMorePerm⟩ := exists_add_ofKeys hOrder' (h.sublist.trans hOld) hKey
    fun hMem => hFresh (List.mem_append_left _ hMem)
  have hAll : (key :: (held ++ runs.flatten)).Perm (more ++ runs.flatten) :=
    hMorePerm.symm.append_right runs.flatten
  have hHolds : Holds order' { s with held := Counted.add key 1 s.held, size := s.size + 1 } more
      runs := by
    refine ⟨h.isOpen, h.canWrite, h.held_eq ▸ hAdd, ?_, h.runs_eq, hMore,
      fun run hMem => (h.runs_sublist run hMem).trans hOld,
      hAll.nodup_iff.mp (List.nodup_cons.mpr ⟨hFresh, h.nodup⟩), fun k hMem => ?_⟩
    · rw [h.size_eq, hMorePerm.length_eq, List.length_cons]
    · exact (h.represents.cons key).perm hAll k (hPerm.mem_iff.mp hMem)
  refine ⟨hHolds.trim hOrder', ?_⟩
  rw [trim_eq hHolds.held_eq hHolds.size_eq]
  exact List.length_take_le _ _

/-- A sorter takes a key more. -/
theorem Collects.add (h : s.Collects order) (hOrder : Ascending order) (hOrder' : Ascending order')
    (hPerm : order'.Perm (key :: order)) :
    ∃ s', s.add key = (.ok (), s') ∧ s'.limit = s.limit ∧ s'.Collects order' := by
  have hInsert := (h.insert hOrder hOrder' hPerm).1
  obtain ⟨held, runs, h⟩ := h
  have hOpen : ¬s.closed = true := by simp [h.isOpen]
  rw [Sorter.add, if_neg hOpen]
  split
  next hZero =>
    have hSub := hOrder.sublist_of_perm hOrder' hPerm
    refine ⟨s, rfl, rfl, held, runs, { h with
      sublist := h.sublist.trans hSub
      runs_sublist := fun run hMem => (h.runs_sublist run hMem).trans hSub
      represents := fun k _ => .inr (hZero ▸ Nat.zero_le _) }⟩
  next hPositive => exact hInsert.spill

/-- The first keys of the order come out, up to the limit. -/
theorem Collects.sorted_eq (h : s.Collects order) (hOrder : Ascending order) :
    s.sorted = ofKeys (order.take s.limit) := by
  obtain ⟨held, runs, h⟩ := h
  obtain ⟨all, hSub, hPerm, hMerge⟩ := exists_mergeAll hOrder
    (List.forall_mem_cons.mpr ⟨h.sublist, h.runs_sublist⟩) h.nodup
  rw [sorted, h.held_eq, h.runs_eq, ← List.map_cons, hMerge,
    (h.represents.perm hPerm.symm).take_eq hOrder hSub]

end Sorter

end SolutionFlow
