import SolutionFlow.Proofs.Spill.Rows

/-! Counted lists as rows. A key that is added is one row more, what is trimmed are the last rows, and what
is merged are the first rows, up to the limit, of all that the lists stand for. -/
namespace SolutionFlow.Counted

section

variable {κ : Type} {all rest : Counted κ} {sources others : List (Counted κ)} {least : κ × Nat} {key : κ}
  {limit n size : Nat}

/-- The rows that a counted list stands for. -/
def rows (all : Counted κ) : List κ := all.flatMap fun entry => List.replicate entry.2 entry.1

@[simp]
theorem rows_nil : rows ([] : Counted κ) = [] := rfl

@[simp]
theorem rows_cons (entry : κ × Nat) (all : Counted κ) :
    rows (entry :: all) = List.replicate entry.2 entry.1 ++ rows all := rfl

theorem rows_reverse (all : Counted κ) : rows all.reverse = (rows all).reverse := by
  simp [rows, List.reverse_flatMap, Function.comp_def]

theorem All.rows {P : κ → Prop} (h : all.All P) : ∀ key ∈ all.rows, P key := by
  intro key hMem
  obtain ⟨entry, hEntry, hKey⟩ := List.mem_flatMap.mp hMem
  rw [List.eq_of_mem_replicate hKey]
  exact h entry hEntry

/-- Of rows from the last one on, as many are taken away as there are beyond the limit. -/
theorem rows_dropExcess (limit : Nat) (hSize : size = all.rows.length) :
    (dropExcess limit all size).1.rows = all.rows.drop (size - limit) ∧
      (dropExcess limit all size).2 = min size limit := by
  induction all generalizing size with
  | nil => simp [dropExcess, hSize]
  | cons entry rest ih =>
      obtain ⟨key, n⟩ := entry
      rw [rows_cons, List.length_append, List.length_replicate] at hSize
      rw [dropExcess]
      split
      next hFew =>
        rw [Nat.sub_eq_zero_of_le hFew, Nat.min_eq_left hFew]
        exact ⟨rfl, rfl⟩
      split
      next hPart =>
        have hLength : size - limit ≤ (List.replicate n key).length := by
          rw [List.length_replicate]
          omega
        rw [rows_cons, rows_cons, List.drop_append_of_le_length hLength, List.drop_replicate]
        exact ⟨rfl, by omega⟩
      next hWhole =>
        have hBehind : size - n = (rows rest).length := by omega
        obtain ⟨hRows, hLeft⟩ := ih hBehind
        have hDrop : (List.replicate n key).length ≤ size - limit := by
          rw [List.length_replicate]
          omega
        rw [hRows, hLeft, rows_cons, List.drop_append, List.drop_eq_nil_of_le hDrop, List.nil_append,
          List.length_replicate, Nat.sub_right_comm]
        exact ⟨rfl, by omega⟩

variable [Ord κ]

/-- The keys come in increasing order, and each at least once. -/
structure Increasing (all : Counted κ) : Prop where
  ordered : all.Pairwise fun a b => compare a.1 b.1 = .lt
  occurs : ∀ entry ∈ all, 0 < entry.2

theorem increasing_nil : Increasing ([] : Counted κ) := ⟨.nil, fun _ hMem => absurd hMem List.not_mem_nil⟩

theorem increasing_cons :
    Increasing ((key, n) :: rest) ↔ 0 < n ∧ rest.All (fun k => compare key k = .lt) ∧ rest.Increasing := by
  constructor
  · rintro ⟨hOrdered, hOccurs⟩
    obtain ⟨hFirst, hBehind⟩ := List.pairwise_cons.mp hOrdered
    obtain ⟨hOnce, hOthers⟩ := List.forall_mem_cons.mp hOccurs
    exact ⟨hOnce, hFirst, hBehind, hOthers⟩
  · rintro ⟨hOnce, hFirst, hBehind, hOthers⟩
    exact ⟨List.pairwise_cons.mpr ⟨hFirst, hBehind⟩, List.forall_mem_cons.mpr ⟨hOnce, hOthers⟩⟩

theorem increasing_concat :
    Increasing (rest ++ [(key, n)]) ↔ 0 < n ∧ rest.All (fun k => compare k key = .lt) ∧ rest.Increasing := by
  constructor
  · rintro ⟨hOrdered, hOccurs⟩
    obtain ⟨hFront, -, hLast⟩ := List.pairwise_append.mp hOrdered
    obtain ⟨hOthers, hOnce⟩ := List.forall_mem_append.mp hOccurs
    exact ⟨hOnce _ List.mem_cons_self, fun entry hMem => hLast entry hMem _ List.mem_cons_self, hFront,
      hOthers⟩
  · rintro ⟨hOnce, hLast, hFront, hOthers⟩
    refine ⟨List.pairwise_append.mpr ⟨hFront, List.pairwise_singleton _ _, ?_⟩, ?_⟩
    · intro entry hMem last hSelf
      rw [List.mem_singleton.mp hSelf]
      exact hLast entry hMem
    · exact List.forall_mem_append.mpr ⟨hOthers, List.forall_mem_singleton.mpr hOnce⟩

/-- What is left of a list is in order. -/
theorem Increasing.dropExcess (h : Increasing all.reverse) (limit size : Nat) :
    Increasing (Counted.dropExcess limit all size).1.reverse := by
  induction all generalizing size with
  | nil => exact h
  | cons entry rest ih =>
      obtain ⟨key, n⟩ := entry
      obtain ⟨hOnce, hLast, hFront⟩ := increasing_concat.mp (List.reverse_cons ▸ h)
      rw [Counted.dropExcess]
      split
      · exact h
      split
      next hPart =>
        rw [List.reverse_cons]
        exact increasing_concat.mpr ⟨by omega, hLast, hFront⟩
      next => exact ih hFront _

theorem rows_add [Std.LawfulEqOrd κ] (key : κ) (count : Nat) (all : Counted κ) :
    (add key count all).rows.Perm (List.replicate count key ++ all.rows) := by
  induction all with
  | nil => exact .refl _
  | cons entry rest ih =>
      obtain ⟨first, n⟩ := entry
      rw [add]
      split
      next => exact .refl _
      next hSame =>
        obtain rfl := Std.LawfulEqCmp.eq_of_compare hSame
        rw [rows_cons, rows_cons, ← List.append_assoc, ← List.replicate_add, Nat.add_comm]
      next =>
        rw [rows_cons, rows_cons]
        exact (ih.append_left _).trans (List.perm_append_comm_assoc _ _ _)

theorem eq_nil_of_popLeast (h : popLeast sources = none) : ∀ source ∈ sources, source = [] := by
  induction sources with
  | nil => simp
  | cons source others ih =>
      cases source with
      | nil => exact List.forall_mem_cons.mpr ⟨rfl, ih (Option.map_eq_none_iff.mp h)⟩
      | cons entry later =>
          rw [popLeast] at h
          split at h
          · simp at h
          · split at h <;> simp at h

/-- The entry that is taken is one more of the rows that the lists stand for. -/
theorem rows_popLeast (hPop : popLeast sources = some (least, others)) :
    (sources.flatMap rows).Perm (List.replicate least.2 least.1 ++ others.flatMap rows) := by
  obtain ⟨before, later, after, rfl, rfl⟩ := popLeast_split hPop
  simp only [List.flatMap_append, List.flatMap_cons, rows_cons, List.append_assoc]
  exact List.perm_append_comm_assoc _ _ _

theorem increasing_popLeast (h : ∀ source ∈ sources, source.Increasing)
    (hPop : popLeast sources = some (least, others)) :
    0 < least.2 ∧ ∀ source ∈ others, source.Increasing := by
  obtain ⟨before, later, after, rfl, rfl⟩ := popLeast_split hPop
  obtain ⟨hBefore, hFrom⟩ := List.forall_mem_append.mp h
  obtain ⟨hSource, hAfter⟩ := List.forall_mem_cons.mp hFrom
  obtain ⟨hOnce, -, hLater⟩ := increasing_cons.mp hSource
  exact ⟨hOnce, List.forall_mem_append.mpr ⟨hBefore, List.forall_mem_cons.mpr ⟨hLater, hAfter⟩⟩⟩

variable [Std.TransOrd κ]

theorem Increasing.nondecreasing_rows (h : all.Increasing) : Nondecreasing all.rows := by
  induction all with
  | nil => exact .nil
  | cons entry rest ih =>
      obtain ⟨key, n⟩ := entry
      obtain ⟨-, hFirst, hBehind⟩ := increasing_cons.mp h
      refine List.pairwise_append.mpr ⟨List.pairwise_replicate.mpr (.inr ?_), ih hBehind, ?_⟩
      · simp [Std.ReflCmp.compare_self]
      · intro k hMem other hOther
        rw [List.eq_of_mem_replicate hMem, hFirst.rows other hOther]
        rfl

theorem Increasing.add (h : all.Increasing) (key : κ) {count : Nat} (hCount : 0 < count) :
    (Counted.add key count all).Increasing := by
  induction all with
  | nil => exact increasing_cons.mpr ⟨hCount, all_nil, increasing_nil⟩
  | cons entry rest ih =>
      obtain ⟨first, n⟩ := entry
      obtain ⟨hOnce, hFirst, hBehind⟩ := increasing_cons.mp h
      rw [Counted.add]
      split
      next hLess =>
        have hOthers : All (fun k => compare key k = .lt) rest :=
          fun entry hMem => Std.TransCmp.lt_trans hLess (hFirst entry hMem)
        exact increasing_cons.mpr ⟨hCount, all_cons.mpr ⟨hLess, hOthers⟩, h⟩
      next => exact increasing_cons.mpr ⟨by omega, hFirst, hBehind⟩
      next hGreater =>
        exact increasing_cons.mpr
          ⟨hOnce, hFirst.add (Std.OrientedCmp.gt_iff_lt.mp hGreater) count, ih hBehind⟩

/-- How often the first key comes can be told from the rows. -/
theorem Increasing.countUpTo_first (h : Increasing ((key, n) :: rest)) :
    countUpTo key (rows ((key, n) :: rest)) = n := by
  obtain ⟨-, hFirst, -⟩ := increasing_cons.mp h
  have hNone : countUpTo key rest.rows = 0 := by
    refine List.countP_eq_zero.mpr fun k hMem => ?_
    simp [Std.OrientedCmp.gt_iff_lt.mpr (hFirst.rows k hMem)]
  rw [rows_cons, countUpTo_append, hNone, countUpTo, List.countP_replicate]
  simp [Std.ReflCmp.compare_self]

/-- A list in order is determined by its rows. -/
theorem Increasing.eq_of_rows {other : Counted κ} (h : all.Increasing) (hOther : other.Increasing)
    (hRows : all.rows = other.rows) : all = other := by
  induction all generalizing other with
  | nil =>
      cases other with
      | nil => rfl
      | cons entry rest =>
          have hOnce := hOther.occurs entry List.mem_cons_self
          have hLength := congrArg List.length hRows
          simp at hLength
          omega
  | cons entry rest ih =>
      obtain ⟨key, n⟩ := entry
      obtain ⟨hOnce, hFirst, hBehind⟩ := increasing_cons.mp h
      cases other with
      | nil =>
          have hLength := congrArg List.length hRows
          simp at hLength
          omega
      | cons entry' rest' =>
          obtain ⟨key', n'⟩ := entry'
          obtain ⟨hOnce', hFirst', hBehind'⟩ := increasing_cons.mp hOther
          obtain rfl : key = key' := by
            simpa [List.head?_append, List.head?_replicate, Nat.ne_of_gt hOnce, Nat.ne_of_gt hOnce']
              using congrArg List.head? hRows
          obtain rfl : n = n' := by rw [← h.countUpTo_first, hRows, hOther.countUpTo_first]
          rw [ih hBehind hBehind' (List.append_cancel_left hRows)]

/-- The first key of a list in order is not behind any of its keys. -/
theorem Increasing.first_le (h : Increasing ((key, n) :: rest)) :
    All (fun k => (compare key k).isLE = true) ((key, n) :: rest) := by
  obtain ⟨-, hFirst, -⟩ := increasing_cons.mp h
  refine all_cons.mpr ⟨by simp [Std.ReflCmp.compare_self], fun entry hMem => ?_⟩
  simp [hFirst entry hMem]

/-- No key comes before the one that is taken. -/
theorem le_of_popLeast (h : ∀ source ∈ sources, source.Increasing)
    (hPop : popLeast sources = some (least, others)) :
    ∀ source ∈ sources, source.All fun k => (compare least.1 k).isLE = true := by
  induction sources generalizing least others with
  | nil => simp
  | cons source behind ih =>
      obtain ⟨hSource, hBehind⟩ := List.forall_mem_cons.mp h
      refine List.forall_mem_cons.mpr ?_
      cases source with
      | nil =>
          obtain ⟨⟨_, _⟩, hPop', hEq⟩ := Option.map_eq_some_iff.mp hPop
          obtain ⟨rfl, rfl⟩ := Prod.mk.inj hEq
          exact ⟨all_nil, ih hBehind hPop'⟩
      | cons entry later =>
          rw [popLeast] at hPop
          split at hPop
          next hNone =>
            obtain ⟨rfl, rfl⟩ := Prod.mk.inj (Option.some.inj hPop)
            refine ⟨hSource.first_le, fun source hMem => ?_⟩
            rw [eq_nil_of_popLeast hNone source hMem]
            exact all_nil
          next other rest' hPop' =>
            split at hPop
            next hUpTo =>
              obtain ⟨rfl, rfl⟩ := Prod.mk.inj (Option.some.inj hPop)
              exact ⟨hSource.first_le, fun source hMem other hOther =>
                Std.TransCmp.isLE_trans hUpTo (ih hBehind hPop' source hMem other hOther)⟩
            next hLater =>
              obtain ⟨rfl, rfl⟩ := Prod.mk.inj (Option.some.inj hPop)
              have hLess : (compare other.1 entry.1).isLE = true := by
                simp [Std.OrientedCmp.gt_iff_lt.mp (Ordering.isLE_eq_false.mp (eq_false_of_ne_true hLater))]
              exact ⟨fun k hMem => Std.TransCmp.isLE_trans hLess (hSource.first_le k hMem),
                ih hBehind hPop'⟩

variable [Std.LawfulEqOrd κ]

/-- All rows with a key are taken from the front, if no key comes before it. -/
theorem gather_spec (key : κ) (count : Nat) (h : ∀ source ∈ sources, source.Increasing)
    (hLeast : ∀ source ∈ sources, source.All fun k => (compare key k).isLE = true) :
    count ≤ (gather key count sources).1 ∧
      (∀ source ∈ (gather key count sources).2, source.Increasing) ∧
      (∀ source ∈ (gather key count sources).2, source.All fun k => compare key k = .lt) ∧
      (List.replicate count key ++ sources.flatMap rows).Perm
        (List.replicate (gather key count sources).1 key ++
          (gather key count sources).2.flatMap rows) := by
  fun_induction gather key count sources with
  | case1 count sources hNone =>
      refine ⟨Nat.le_refl _, h, fun source hMem => ?_, .refl _⟩
      rw [eq_nil_of_popLeast hNone source hMem]
      exact all_nil
  | case2 count sources next rest hPop hSame ih =>
      obtain rfl := Std.LawfulEqCmp.eq_of_compare hSame
      obtain ⟨hMore, hIncreasing, hLater, hRows⟩ := ih (increasing_popLeast h hPop).2
        (all_popLeast hLeast hPop).2
      refine ⟨by omega, hIncreasing, hLater, .trans ?_ hRows⟩
      rw [List.replicate_add, List.append_assoc]
      exact (rows_popLeast hPop).append_left _
  | case3 count sources next rest hPop hOther =>
      refine ⟨Nat.le_refl _, h, fun source hMem entry hEntry => ?_, .refl _⟩
      have hLess : compare key next.1 = .lt := by
        have hUpTo := (all_popLeast hLeast hPop).1
        cases hCompare : compare key next.1 with
        | lt => rfl
        | eq => exact absurd (Std.OrientedCmp.eq_symm hCompare) hOther
        | gt => simp [hCompare] at hUpTo
      exact Std.TransCmp.lt_of_lt_of_isLE hLess (le_of_popLeast h hPop source hMem entry hEntry)

/-- A merge of lists in order is in order, and stands for the first rows, up to the limit, of all that the
lists stand for. -/
theorem mergeAll_spec (h : ∀ source ∈ sources, source.Increasing) (limit : Nat) :
    (mergeAll limit sources).Increasing ∧
      (mergeAll limit sources).rows = (inOrder (sources.flatMap rows)).take limit := by
  fun_induction mergeAll limit sources with
  | case1 => exact ⟨increasing_nil, by simp⟩
  | case2 limit sources hLimit hNone =>
      have hRows : sources.flatMap rows = [] := by
        refine List.flatMap_eq_nil_iff.mpr fun source hMem => ?_
        rw [eq_nil_of_popLeast hNone source hMem, rows_nil]
      exact ⟨increasing_nil, by simp [hRows, inOrder]⟩
  | case3 limit sources hLimit key n rest hPop gathered count ih =>
      obtain ⟨hOnce, hRest⟩ := increasing_popLeast h hPop
      obtain ⟨hMore, hIncreasing, hLater, hRows⟩ :=
        gather_spec key n hRest (all_popLeast (le_of_popLeast h hPop) hPop).2
      obtain ⟨hMerged, hMergedRows⟩ := ih hIncreasing
      have hTotal : n ≤ gathered.1 := hMore
      refine ⟨increasing_cons.mpr ⟨by omega, all_mergeAll hLater _, hMerged⟩, ?_⟩
      have hOrder : inOrder (sources.flatMap rows) =
          List.replicate gathered.1 key ++ inOrder (gathered.2.flatMap rows) := by
        refine Nondecreasing.inOrder_eq (List.pairwise_append.mpr
          ⟨List.pairwise_replicate.mpr (.inr (by simp [Std.ReflCmp.compare_self])),
            nondecreasing_inOrder _, ?_⟩) ?_
        · intro k hMem other hOther
          obtain ⟨source, hSource, hOther⟩ :=
            List.mem_flatMap.mp ((inOrder_perm _).mem_iff.mp hOther)
          rw [List.eq_of_mem_replicate hMem, (hLater source hSource).rows other hOther]
          rfl
        · exact ((inOrder_perm _).append_left _).trans (hRows.symm.trans (rows_popLeast hPop).symm)
      rw [rows_cons, hMergedRows, hOrder, List.take_append, List.take_replicate, List.length_replicate]
      rcases Nat.le_total gathered.1 limit with hAll | hPart
      · have hCount : count = gathered.1 := Nat.min_eq_left hAll
        rw [hCount, Nat.min_eq_right hAll]
      · have hCount : count = limit := Nat.min_eq_right hPart
        rw [hCount, Nat.min_eq_left hPart, Nat.sub_self, Nat.sub_eq_zero_of_le hPart]

end

end SolutionFlow.Counted
