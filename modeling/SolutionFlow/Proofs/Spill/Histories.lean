import SolutionFlow.Proofs.Spill.Merged

/-! What a sorter gives back after whatever has happened to it: of the keys that it has been given since it
was drained, the first ones in order, up to its limit and with repeats. Neither its threshold nor the runs
that it could or could not write make a difference. The keys of additions that have failed are among them:
one that cannot write the run which is due has taken its key before. -/
namespace SolutionFlow.Sorter

open Counted

/-- What happens to a sorter: a call, or a change of whether files can be made. -/
inductive Event (κ : Type) where
  | add (key : κ)
  | drain
  | close
  | access (canWrite : Bool)

section

variable {κ : Type} {history later : List (Event κ)} {pending : List κ} {key : κ}

/-- The keys that have been given to a sorter since it was drained, whatever the answer was. -/
def pendingFrom (pending : List κ) : List (Event κ) → List κ
  | [] => pending
  | .add key :: later => pendingFrom (pending ++ [key]) later
  | .drain :: later => pendingFrom [] later
  | .close :: later => pendingFrom [] later
  | .access _ :: later => pendingFrom pending later

/-- The keys that are left to be drained after a history. -/
def pendingOf (history : List (Event κ)) : List κ := pendingFrom [] history

theorem pendingFrom_append (pending : List κ) (history later : List (Event κ)) :
    pendingFrom pending (history ++ later) = pendingFrom (pendingFrom pending history) later := by
  induction history generalizing pending with
  | nil => rfl
  | cons event history ih => cases event <;> exact ih _

theorem pendingOf_append (history later : List (Event κ)) :
    pendingOf (history ++ later) = pendingFrom (pendingOf history) later :=
  pendingFrom_append [] history later

/-- What was pending before a drain does not matter after it. -/
theorem pendingFrom_of_drain (hDrain : .drain ∈ later) (pending others : List κ) :
    pendingFrom pending later = pendingFrom others later := by
  obtain ⟨before, after, rfl⟩ := List.append_of_mem hDrain
  rw [pendingFrom_append, pendingFrom_append]
  rfl

theorem pendingFrom_eq_append (hDrain : .drain ∉ later) (hOpen : .close ∉ later) (pending : List κ) :
    pendingFrom pending later = pending ++ pendingOf later := by
  induction later generalizing pending with
  | nil => exact (List.append_nil pending).symm
  | cons event later ih =>
      obtain ⟨hDrain', hOpen'⟩ : .drain ∉ later ∧ .close ∉ later :=
        ⟨fun hMem => hDrain (.tail _ hMem), fun hMem => hOpen (.tail _ hMem)⟩
      cases event with
      | add key =>
          have hNext : pendingOf (.add key :: later) = [key] ++ pendingOf later := ih hDrain' hOpen' [key]
          rw [pendingFrom, ih hDrain' hOpen', hNext, List.append_assoc]
      | drain => exact absurd List.mem_cons_self hDrain
      | close => exact absurd List.mem_cons_self hOpen
      | access canWrite => exact ih hDrain' hOpen' pending

variable {s : Sorter κ}

theorem spill_frame (s : Sorter κ) :
    s.spill.2.closed = s.closed ∧ s.spill.2.limit = s.limit ∧ s.spill.2.options = s.options := by
  unfold Sorter.spill
  split
  · exact ⟨rfl, rfl, rfl⟩
  split <;> exact ⟨rfl, rfl, rfl⟩

variable [Ord κ]

/-- What becomes of a sorter. -/
def undergo (s : Sorter κ) : Event κ → Sorter κ
  | .add key => (s.add key).2
  | .drain => s.drain.2
  | .close => s.close
  | .access canWrite => { s with options := { s.options with canWrite } }

def after (s : Sorter κ) (history : List (Event κ)) : Sorter κ := history.foldl undergo s

theorem after_append (s : Sorter κ) (history later : List (Event κ)) :
    s.after (history ++ later) = (s.after history).after later := List.foldl_append

/-- An addition is concerned with the keys alone. -/
theorem add_frame (s : Sorter κ) (key : κ) :
    (s.add key).2.closed = s.closed ∧ (s.add key).2.limit = s.limit ∧ (s.add key).2.options = s.options := by
  unfold Sorter.add
  split
  · exact ⟨rfl, rfl, rfl⟩
  split
  · exact ⟨rfl, rfl, rfl⟩
  · exact spill_frame _

theorem drain_frame (s : Sorter κ) :
    s.drain.2.closed = s.closed ∧ s.drain.2.limit = s.limit ∧ s.drain.2.options = s.options := by
  unfold Sorter.drain
  split <;> exact ⟨rfl, rfl, rfl⟩

/-- An addition succeeds, unless the sorter is closed or cannot make the file for a run. -/
theorem add_answers (s : Sorter κ) (key : κ) :
    s.closed = true ∧ s.add key = (.error .closed, s) ∨
      s.closed = false ∧ ((s.add key).1 = .ok () ∨
        s.options.canWrite = false ∧ (s.add key).1 = .error SpillOptions.unwritable) := by
  cases hClosed : s.closed with
  | true => exact .inl ⟨rfl, by rw [Sorter.add, if_pos hClosed]⟩
  | false =>
      refine .inr ⟨rfl, ?_⟩
      rw [Sorter.add, if_neg (ne_true_of_eq_false hClosed)]
      split
      · exact .inl rfl
      rw [Sorter.spill]
      split
      · exact .inl rfl
      split
      next => exact .inl rfl
      next hWrite => exact .inr ⟨eq_false_of_ne_true hWrite, rfl⟩

theorem limit_undergo (s : Sorter κ) (event : Event κ) : (s.undergo event).limit = s.limit := by
  cases event with
  | add key => exact (add_frame s key).2.1
  | drain => exact (drain_frame s).2.1
  | close => rfl
  | access canWrite => rfl

theorem limit_after (s : Sorter κ) (history : List (Event κ)) : (s.after history).limit = s.limit := by
  induction history generalizing s with
  | nil => rfl
  | cons event history ih => exact (ih _).trans (limit_undergo s event)

/-- Files can be made until it turns out that they cannot. -/
theorem canWrite_after (hFiles : .access false ∉ history) (h : s.options.canWrite = true) :
    (s.after history).options.canWrite = true := by
  induction history generalizing s with
  | nil => exact h
  | cons event history ih =>
      refine ih (fun hMem => hFiles (.tail _ hMem)) ?_
      cases event with
      | add key => exact (add_frame s key).2.2 ▸ h
      | drain => exact (drain_frame s).2.2 ▸ h
      | close => exact h
      | access canWrite =>
          cases canWrite with
          | true => rfl
          | false => exact absurd List.mem_cons_self hFiles

theorem closed_after (h : s.closed = true) : (s.after history).closed = true := by
  induction history generalizing s with
  | nil => exact h
  | cons event history ih =>
      refine ih ?_
      cases event with
      | add key => exact (add_frame s key).1.trans h
      | drain => exact (drain_frame s).1.trans h
      | close => rfl
      | access canWrite => exact h

theorem closed_after_close (hClose : .close ∈ history) (s : Sorter κ) : (s.after history).closed = true := by
  obtain ⟨before, rest, rfl⟩ := List.append_of_mem hClose
  rw [after_append]
  exact closed_after (s := (s.after before).close) rfl

/-- An open sorter from which the first keys of all that are pending can be taken, up to its limit. -/
structure Stores (s : Sorter κ) (pending : List κ) : Prop where
  isOpen : s.closed = false
  held_increasing : s.held.Increasing
  size_eq : s.size = s.held.rows.length
  runs_increasing : ∀ run ∈ s.runs, run.Increasing
  alike : BeginAlike s.limit (s.held.rows ++ s.runs.flatMap rows) pending

theorem stores_new (limit : Nat) (options : SpillOptions) : (new limit options : Sorter κ).Stores [] where
  isOpen := rfl
  held_increasing := increasing_nil
  size_eq := rfl
  runs_increasing := by simp [new]
  alike := fun _ => rfl

/-- A run is written from what is in memory, or nothing happens. -/
theorem Stores.spill (h : s.Stores pending) : s.spill.2.Stores pending := by
  unfold Sorter.spill
  split
  · exact h
  split
  · refine ⟨h.isOpen, increasing_nil, rfl, ?_, .trans (.of_perm ?_ s.limit) h.alike⟩
    · exact List.forall_mem_append.mpr
        ⟨h.runs_increasing, fun run hMem => List.mem_singleton.mp hMem ▸ h.held_increasing⟩
    · simpa using List.perm_append_comm
  · exact h

theorem Stores.drain (h : s.Stores pending) : s.drain.2.Stores [] := by
  rw [Sorter.drain, if_neg (ne_true_of_eq_false h.isOpen)]
  exact ⟨h.isOpen, increasing_nil, rfl, by simp, fun _ => rfl⟩

variable [Std.TransOrd κ]

/-- The rows that are taken away are not among the first ones. -/
theorem Stores.trim (h : s.Stores pending) : s.trim.Stores pending := by
  have hSize : s.size = (rows s.held.reverse).length := by
    rw [rows_reverse, List.length_reverse, h.size_eq]
  obtain ⟨hKept, hLeft⟩ := rows_dropExcess s.limit hSize
  have hRows : s.trim.held.rows = s.held.rows.take s.limit := by
    rw [Sorter.trim, rows_reverse, hKept, rows_reverse, List.drop_reverse, List.reverse_reverse, h.size_eq,
      List.take_eq_take_iff]
    omega
  refine ⟨h.isOpen, ?_, ?_, h.runs_increasing, ?_⟩
  · exact ((List.reverse_reverse s.held).symm ▸ h.held_increasing).dropExcess s.limit s.size
  · rw [hRows, List.length_take, ← h.size_eq, Nat.min_comm]
    exact hLeft
  · rw [hRows]
    exact (BeginAlike.take h.held_increasing.nondecreasing_rows s.limit _).trans h.alike

variable [Std.LawfulEqOrd κ]

/-- A key is taken, also if the addition fails. -/
theorem Stores.add (h : s.Stores pending) (key : κ) : (s.add key).2.Stores (pending ++ [key]) := by
  rw [Sorter.add, if_neg (ne_true_of_eq_false h.isOpen)]
  split
  next hLimit => exact { h with alike := fun _ => by simp [hLimit] }
  next =>
    have hAdd : (Counted.add key 1 s.held).rows.Perm (s.held.rows ++ [key]) :=
      (rows_add key 1 s.held).trans List.perm_append_comm
    have hAll : ((Counted.add key 1 s.held).rows ++ s.runs.flatMap rows).Perm
        (s.held.rows ++ s.runs.flatMap rows ++ [key]) := by
      refine (hAdd.append_right _).trans ?_
      rw [List.append_assoc, List.append_assoc]
      exact List.perm_append_comm.append_left _
    have hSize : s.size + 1 = (Counted.add key 1 s.held).rows.length := by
      rw [hAdd.length_eq, h.size_eq, List.length_append, List.length_singleton]
    exact Stores.spill (Stores.trim
      { isOpen := h.isOpen
        held_increasing := h.held_increasing.add key Nat.one_pos
        size_eq := hSize
        runs_increasing := h.runs_increasing
        alike := (BeginAlike.of_perm hAll s.limit).trans (h.alike.append [key]) })

theorem Stores.undergo {event : Event κ} (h : s.Stores pending) (hOpen : event ≠ .close) :
    (s.undergo event).Stores (pendingFrom pending [event]) := by
  cases event with
  | add key => exact h.add key
  | drain => exact h.drain
  | close => exact absurd rfl hOpen
  | access canWrite => exact { h with }

theorem Stores.after (h : s.Stores pending) (hOpen : .close ∉ history) :
    (s.after history).Stores (pendingFrom pending history) := by
  induction history generalizing s pending with
  | nil => exact h
  | cons event history ih =>
      rw [← List.singleton_append, pendingFrom_append]
      exact ih (h.undergo fun hClose => hOpen (hClose ▸ List.mem_cons_self)) fun hMem => hOpen (.tail _ hMem)

/-- The first keys, up to the limit, are all that a drain shows of what is pending. -/
theorem Stores.drain_eq (h : s.Stores pending) :
    ∃ sorted, s.drain.1 = .ok sorted ∧ sorted.Increasing ∧ sorted.rows = (inOrder pending).take s.limit := by
  obtain ⟨hIncreasing, hRows⟩ :=
    mergeAll_spec (List.forall_mem_cons.mpr ⟨h.held_increasing, h.runs_increasing⟩) s.limit
  refine ⟨s.sorted, ?_, hIncreasing, hRows.trans (take_inOrder_eq_iff.mpr h.alike)⟩
  rw [Sorter.drain, if_neg (ne_true_of_eq_false h.isOpen)]

/-- Two sorters with one limit give back the same exactly if the keys that are pending begin alike. -/
theorem Stores.drain_eq_iff {t : Sorter κ} {others : List κ} (h : s.Stores pending) (hOther : t.Stores others)
    (hLimit : t.limit = s.limit) : s.drain.1 = t.drain.1 ↔ BeginAlike s.limit pending others := by
  obtain ⟨sorted, hDrain, hIncreasing, hRows⟩ := h.drain_eq
  obtain ⟨sorted', hDrain', hIncreasing', hRows'⟩ := hOther.drain_eq
  rw [hDrain, hDrain', ← take_inOrder_eq_iff, ← hRows, ← hLimit, ← hRows']
  constructor
  · intro hSame
    rw [Except.ok.inj hSame]
  · intro hSame
    rw [hIncreasing.eq_of_rows hIncreasing' hSame]

/-- A sorter that can make files takes every key, and a drain gives the first ones, up to its limit, of those
that have been added since the last drain, in order and with their numbers; the threshold at which it
writes runs makes no difference. -/
theorem drain_after (limit threshold : Nat) (history : List (Event κ)) (hFiles : .access false ∉ history)
    (hOpen : .close ∉ history) :
    let s : Sorter κ := (new limit ⟨threshold, true⟩).after history
    (∀ key, (s.add key).1 = .ok ()) ∧
      ∃ sorted, s.drain.1 = .ok sorted ∧ sorted.Increasing ∧
        sorted.rows = (inOrder (pendingOf history)).take limit ∧
        ∀ other, ((new limit ⟨other, true⟩ : Sorter κ).after history).drain.1 = .ok sorted := by
  intro s
  have hStores (threshold : Nat) :
      ((new limit ⟨threshold, true⟩ : Sorter κ).after history).Stores (pendingOf history) :=
    (stores_new limit _).after hOpen
  have hLimit (threshold : Nat) : ((new limit ⟨threshold, true⟩ : Sorter κ).after history).limit = limit :=
    limit_after _ history
  refine ⟨fun key => ?_, ?_⟩
  · have hWrite : s.options.canWrite = true := canWrite_after hFiles rfl
    rcases add_answers s key with ⟨hClosed, -⟩ | ⟨-, hAnswer | ⟨hNot, -⟩⟩
    · exact absurd hClosed (ne_true_of_eq_false (hStores threshold).isOpen)
    · exact hAnswer
    · exact absurd (hWrite.symm.trans hNot) Bool.noConfusion
  · obtain ⟨sorted, hDrain, hIncreasing, hRows⟩ := (hStores threshold).drain_eq
    rw [hLimit threshold] at hRows
    refine ⟨sorted, hDrain, hIncreasing, hRows, fun other => Eq.trans ?_ hDrain⟩
    exact ((hStores other).drain_eq_iff (hStores threshold) (by rw [hLimit, hLimit])).mpr fun _ => rfl

theorem drain_after_spilling :
    ∃ sorted, ((new 3 ⟨2, true⟩ : Sorter Nat).after [.add 3, .add 1, .add 3, .add 2]).drain.1 = .ok sorted ∧
      sorted.Increasing ∧ sorted.rows = [1, 2, 3] := by
  obtain ⟨-, sorted, hDrain, hIncreasing, hRows, -⟩ :=
    drain_after 3 2 [.add 3, .add 1, .add 3, .add 2] (by simp) (by simp)
  have hOrder : inOrder [3, 1, 3, 2] = [1, 2, 3, 3] :=
    Nondecreasing.inOrder_eq (by simp [Nondecreasing, Nat.isLE_compare]) (by decide)
  exact ⟨sorted, hDrain, hIncreasing, hRows.trans (congrArg (List.take 3) hOrder)⟩

/-- A key more makes no difference to what is drained later exactly if it is drained before, or the limit is
reached by keys that go up to it. -/
theorem beginAlike_pendingFrom_iff (limit : Nat) (hOpen : .close ∉ later) (pending : List κ) (key : κ) :
    BeginAlike limit (pendingFrom (pending ++ [key]) later) (pendingFrom pending later) ↔
      .drain ∈ later ∨ limit ≤ countUpTo key (pendingFrom pending later) := by
  by_cases hDrain : .drain ∈ later
  · rw [pendingFrom_of_drain hDrain (pending ++ [key]) pending]
    exact iff_of_true (fun _ => rfl) (.inl hDrain)
  · rw [pendingFrom_eq_append hDrain hOpen, pendingFrom_eq_append hDrain hOpen pending]
    have hPerm : (pending ++ [key] ++ pendingOf later).Perm (pending ++ pendingOf later ++ [key]) := by
      rw [List.append_assoc, List.append_assoc]
      exact List.perm_append_comm.append_left _
    rw [or_iff_right hDrain, ← beginAlike_concat_iff]
    exact ⟨(BeginAlike.of_perm hPerm limit).symm.trans, (BeginAlike.of_perm hPerm limit).trans⟩

/-- An addition that fails leaves a closed sorter as it is. If it cannot write a run, the key has been taken
all the same: drains give the first of the keys with this one among them, and therefore not what they
give without the call, unless there was a drain in between or the keys up to this one reach the limit. -/
theorem drain_after_failed_add (limit : Nat) (options : SpillOptions) {e : SpillError}
    (hFail : (((new limit options : Sorter κ).after history).add key).1 = .error e) :
    let s : Sorter κ := (new limit options).after history
    let t := (s.add key).2
    (.close ∈ history ∧ e = .closed ∧ t = s) ∨
      (.close ∉ history ∧ e = SpillOptions.unwritable ∧ s.options.canWrite = false ∧
        ∀ later, .close ∉ later →
          (∃ sorted, (t.after later).drain.1 = .ok sorted ∧ sorted.Increasing ∧
            sorted.rows = (inOrder (pendingOf (history ++ .add key :: later))).take limit) ∧
          ((t.after later).drain.1 = (s.after later).drain.1 ↔
            .drain ∈ later ∨ limit ≤ countUpTo key (pendingOf (history ++ later)))) := by
  intro s t
  have hLimit : s.limit = limit := limit_after _ history
  by_cases hClose : .close ∈ history
  · have hClosed : s.closed = true := closed_after_close hClose _
    rcases add_answers s key with ⟨-, hAdd⟩ | ⟨hOpen, -⟩
    · have hError : Except.error e = .error SpillError.closed := hFail.symm.trans (congrArg Prod.fst hAdd)
      exact .inl ⟨hClose, Except.error.inj hError, congrArg Prod.snd hAdd⟩
    · exact absurd hClosed (ne_true_of_eq_false hOpen)
  · have hStores : s.Stores (pendingOf history) := (stores_new limit options).after hClose
    refine .inr ⟨hClose, ?_⟩
    obtain ⟨hWrite, hError⟩ : s.options.canWrite = false ∧ e = SpillOptions.unwritable := by
      rcases add_answers s key with ⟨hClosed, -⟩ | ⟨-, hTaken | ⟨hWrite, hAnswer⟩⟩
      · exact absurd hClosed (ne_true_of_eq_false hStores.isOpen)
      · exact absurd (hTaken.symm.trans hFail) nofun
      · exact ⟨hWrite, (Except.error.inj (hAnswer.symm.trans hFail)).symm⟩
    refine ⟨hError, hWrite, fun later hOpen => ?_⟩
    have hAdded : (t.after later).limit = limit :=
      (limit_after t later).trans ((add_frame s key).2.1.trans hLimit)
    have hWith := (hStores.add key).after hOpen
    have hWithout := hStores.after hOpen
    rw [pendingOf_append, pendingOf_append]
    refine ⟨?_, ?_⟩
    · rw [← hAdded]
      exact hWith.drain_eq
    · have hSame : (s.after later).limit = limit := (limit_after s later).trans hLimit
      rw [hWith.drain_eq_iff hWithout (hSame.trans hAdded.symm), hAdded]
      exact beginAlike_pendingFrom_iff limit hOpen _ key

theorem drain_after_failed_add_below :
    (((new 2 ⟨2, false⟩ : Sorter Nat).after [.add 5]).add 3).1 = .error SpillOptions.unwritable ∧
      ∃ sorted, ((((new 2 ⟨2, false⟩ : Sorter Nat).after [.add 5]).add 3).2.after []).drain.1 = .ok sorted ∧
        sorted.Increasing ∧ sorted.rows = [3, 5] := by
  have hFail : (((new 2 ⟨2, false⟩ : Sorter Nat).after [.add 5]).add 3).1 =
      .error SpillOptions.unwritable := rfl
  refine ⟨hFail, ?_⟩
  rcases drain_after_failed_add 2 ⟨2, false⟩ hFail with ⟨hClose, -⟩ | ⟨-, -, -, hLater⟩
  · simp at hClose
  · obtain ⟨⟨sorted, hDrain, hIncreasing, hRows⟩, -⟩ := hLater [] (by simp)
    have hOrder : inOrder [5, 3] = [3, 5] :=
      Nondecreasing.inOrder_eq (by simp [Nondecreasing, Nat.isLE_compare]) (by decide)
    exact ⟨sorted, hDrain, hIncreasing, hRows.trans (congrArg (List.take 2) hOrder)⟩

/-- A key whose addition has failed comes out of the next drain. -/
theorem failed_add_shows :
    (((new 2 ⟨2, false⟩ : Sorter Nat).after [.add 5]).add 3).1 = .error SpillOptions.unwritable ∧
      (((new 2 ⟨2, false⟩ : Sorter Nat).after [.add 5]).add 3).2.drain.1 ≠
        ((new 2 ⟨2, false⟩ : Sorter Nat).after [.add 5]).drain.1 := by
  refine ⟨rfl, fun hSame => ?_⟩
  have hStores : ((new 2 ⟨2, false⟩ : Sorter Nat).after [.add 5]).Stores [5] :=
    (stores_new 2 _).after (by simp)
  have hAlike : BeginAlike 2 [5, 3] [5] := ((hStores.add 3).drain_eq_iff hStores rfl).mp hSame
  exact absurd (hAlike 3) (by decide)

end

end SolutionFlow.Sorter
