import Mathlib.Data.List.Perm.Basic
import SolutionFlow.Proofs.Spill.Counted

/-! Keys that come more than once, in order. How some keys begin when they are put in order, up to a limit,
is told by how many of them go up to each key, counted no further than the limit; so whatever keeps these
numbers keeps the beginning. -/
namespace SolutionFlow

section

variable {κ : Type} [Ord κ]

/-- Keys in increasing order, with repeats. -/
def inOrder (keys : List κ) : List κ := keys.mergeSort fun a b => (compare a b).isLE

def Nondecreasing (keys : List κ) : Prop := keys.Pairwise fun a b => (compare a b).isLE = true

/-- How many keys go up to a key, with repeats. -/
def countUpTo (key : κ) (keys : List κ) : Nat := keys.countP fun k => (compare k key).isLE

/-- As far as the limit, as many of these keys as of the others go up to each key. -/
def BeginAlike (limit : Nat) (keys others : List κ) : Prop :=
  ∀ key, min limit (countUpTo key keys) = min limit (countUpTo key others)

variable {limit : Nat} {key : κ} {keys others more : List κ}

@[simp]
theorem countUpTo_append (key : κ) (keys others : List κ) :
    countUpTo key (keys ++ others) = countUpTo key keys + countUpTo key others := List.countP_append

@[simp]
theorem countUpTo_nil (key : κ) : countUpTo key [] = 0 := rfl

theorem countUpTo_perm (h : keys.Perm others) (key : κ) : countUpTo key keys = countUpTo key others :=
  h.countP_eq _

theorem inOrder_perm (keys : List κ) : (inOrder keys).Perm keys := List.mergeSort_perm keys _

theorem BeginAlike.symm (h : BeginAlike limit keys others) : BeginAlike limit others keys :=
  fun key => (h key).symm

theorem BeginAlike.trans (h : BeginAlike limit keys others) (hMore : BeginAlike limit others more) :
    BeginAlike limit keys more := fun key => (h key).trans (hMore key)

theorem BeginAlike.of_perm (h : keys.Perm others) (limit : Nat) : BeginAlike limit keys others :=
  fun key => by rw [countUpTo_perm h key]

/-- The same keys may come in addition to both. -/
theorem BeginAlike.append (h : BeginAlike limit keys others) (more : List κ) :
    BeginAlike limit (keys ++ more) (others ++ more) := by
  intro key
  have hKey := h key
  rw [countUpTo_append, countUpTo_append]
  omega

variable [Std.TransOrd κ]

theorem nondecreasing_inOrder (keys : List κ) : Nondecreasing (inOrder keys) := by
  refine List.pairwise_mergeSort (fun a b c => Std.TransCmp.isLE_trans) (fun a b => ?_) keys
  cases hCompare : compare a b with
  | lt | eq => rfl
  | gt => simp [Std.OrientedCmp.gt_iff_lt.mp hCompare]

/-- Of keys in order, those that go up to a key come first. -/
theorem countUpTo_take (h : Nondecreasing keys) (key : κ) (limit : Nat) :
    countUpTo key (keys.take limit) = min limit (countUpTo key keys) := by
  induction keys generalizing limit with
  | nil => simp
  | cons first rest ih =>
      obtain ⟨hFirst, hRest⟩ := List.pairwise_cons.mp h
      cases limit with
      | zero => simp
      | succ limit =>
          have hTake := ih hRest limit
          by_cases hUpTo : (compare first key).isLE = true
          · simp only [countUpTo, List.take_succ_cons, List.countP_cons, hUpTo, ↓reduceIte] at hTake ⊢
            omega
          · have hNone : countUpTo key rest = 0 := by
              rw [countUpTo, List.countP_eq_zero]
              exact fun k hMem hLater => hUpTo (Std.TransCmp.isLE_trans (hFirst k hMem) hLater)
            simp only [countUpTo, List.take_succ_cons, List.countP_cons, hUpTo] at hTake hNone ⊢
            rw [hTake, hNone]
            simp

/-- The first key in order goes up to each key up to which one goes at all. -/
theorem first_le_of_countUpTo {first : κ} {rest : List κ} (h : Nondecreasing (first :: rest))
    (hSome : countUpTo key (first :: rest) ≠ 0) : (compare first key).isLE = true := by
  obtain ⟨k, hMem, hUpTo⟩ := List.countP_pos_iff.mp (Nat.pos_of_ne_zero hSome)
  rcases List.mem_cons.mp hMem with rfl | hLater
  · exact hUpTo
  · exact Std.TransCmp.isLE_trans ((List.pairwise_cons.mp h).1 k hLater) hUpTo

theorem countUpTo_self_ne_zero (key : κ) (rest : List κ) : countUpTo key (key :: rest) ≠ 0 := by
  simp [countUpTo]

/-- Of keys in order, those beyond the limit are not needed, whatever else there is. -/
theorem BeginAlike.take (h : Nondecreasing keys) (limit : Nat) (others : List κ) :
    BeginAlike limit (keys.take limit ++ others) (keys ++ others) := by
  intro key
  rw [countUpTo_append, countUpTo_append, countUpTo_take h]
  omega

variable [Std.LawfulEqOrd κ]

/-- Keys in order are determined by how many of them go up to each key. -/
theorem Nondecreasing.eq_of_countUpTo (h : Nondecreasing keys) (hOthers : Nondecreasing others)
    (hCount : ∀ key, countUpTo key keys = countUpTo key others) : keys = others := by
  induction keys generalizing others with
  | nil =>
      cases others with
      | nil => rfl
      | cons first rest => exact absurd (hCount first).symm (countUpTo_self_ne_zero first rest)
  | cons first rest ih =>
      cases others with
      | nil => exact absurd (hCount first) (countUpTo_self_ne_zero first rest)
      | cons first' rest' =>
          have hGe := first_le_of_countUpTo hOthers (hCount first ▸ countUpTo_self_ne_zero first rest)
          have hLe := first_le_of_countUpTo h ((hCount first').symm ▸ countUpTo_self_ne_zero first' rest')
          obtain rfl : first = first' := Std.LawfulEqCmp.eq_of_compare (Std.OrientedCmp.isLE_antisymm hLe hGe)
          refine congrArg (first :: ·) (ih (List.pairwise_cons.mp h).2 (List.pairwise_cons.mp hOthers).2 ?_)
          intro key
          have hKey := hCount key
          simp only [countUpTo, List.countP_cons] at hKey ⊢
          omega

/-- There is one way to put keys in order. -/
theorem Nondecreasing.inOrder_eq (h : Nondecreasing keys) (hPerm : keys.Perm others) :
    inOrder others = keys :=
  (nondecreasing_inOrder others).eq_of_countUpTo h fun key =>
    countUpTo_perm ((inOrder_perm others).trans hPerm.symm) key

theorem take_inOrder_eq_iff :
    (inOrder keys).take limit = (inOrder others).take limit ↔ BeginAlike limit keys others := by
  have hCount (keys : List κ) (key : κ) :
      countUpTo key ((inOrder keys).take limit) = min limit (countUpTo key keys) := by
    rw [countUpTo_take (nondecreasing_inOrder keys), countUpTo_perm (inOrder_perm keys)]
  refine ⟨fun hSame key => ?_, fun hAlike => ?_⟩
  · rw [← hCount, ← hCount, hSame]
  · refine Nondecreasing.eq_of_countUpTo ((nondecreasing_inOrder keys).sublist (List.take_sublist _ _))
      ((nondecreasing_inOrder others).sublist (List.take_sublist _ _)) fun key => ?_
    rw [hCount, hCount, hAlike key]

/-- A key more does not show among the first ones exactly if as many go up to it without it. -/
theorem beginAlike_concat_iff :
    BeginAlike limit (keys ++ [key]) keys ↔ limit ≤ countUpTo key keys := by
  have hOne : countUpTo key [key] = 1 := by simp [countUpTo]
  constructor
  · intro hAlike
    have hKey := hAlike key
    rw [countUpTo_append, hOne] at hKey
    omega
  · intro hMany other
    rw [countUpTo_append]
    by_cases hUpTo : (compare key other).isLE = true
    · have hMore : countUpTo key keys ≤ countUpTo other keys :=
        List.countP_mono_left fun k _ hLe => Std.TransCmp.isLE_trans hLe hUpTo
      omega
    · simp [countUpTo, hUpTo]

end

end SolutionFlow
