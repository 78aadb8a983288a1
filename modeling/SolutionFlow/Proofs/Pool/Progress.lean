import Mathlib
import SolutionFlow.Proofs.Pool.Workshop

/-! Progress on a worker pool. A job is never queued behind a busy worker, so jobs that wait for their own jobs do
not keep them from being run: somebody can act until all is done, and every action leaves less to do. -/
namespace SolutionFlow

/-- How many actions work can take at most, those of its jobs and of their workers included. -/
def Work.cost : Work → Nat
  | .submit job next => job.cost + next.cost + 5
  | .await _ next | .answer next => next.cost + 1
  | .halt _ => 0

namespace Workshop

variable {s s' : Workshop} {r : Pool.Record} {m : Pool.Move} {c c' : Conduct}
  {front back added : List Conduct} {k job : Nat}

/-- Whether nothing is left of a party: a client has done its work, and a job has been run. -/
def Finished (s : Workshop) (k : Nat) : Prop :=
  if k < s.clients then ∃ c, s.parties[k]? = some c ∧ c.isOver = true else k ∈ s.pool.ran

/-- A job that no worker has begun leaves something to do for the one who holds it, or for a core worker: as long
as a job is in the queue, some core worker waits. -/
theorem Sound.exists_step_of_waiting (h : Sound r s) (hWaits : 0 < s.pool.waiting job) :
    ∃ m s', s.Step m s' := by
  by_cases hClaimed : job ∈ s.pool.claimed
  · have hHeld : job ∈ s.parties.filterMap Conduct.holding := by
      rw [← List.count_pos_iff, ← h.held job]
      exact List.count_pos_iff.mpr hClaimed
    obtain ⟨⟨holding, submitted, answered, work⟩, hMem, hHolding⟩ := List.mem_filterMap.mp hHeld
    obtain rfl : holding = some job := hHolding
    obtain ⟨front, back, hParties⟩ := List.append_of_mem hMem
    have hParty : s.parties[front.length]? = some ⟨some job, submitted, answered, work⟩ := by
      simp [hParties]
    exact ⟨_, _, .act hParties (h.acts hParty nofun) .enqueue hClaimed⟩
  · have hQueue : s.pool.queue ≠ [] := by
      intro hNone
      rw [Pool.waiting, List.count_eq_zero_of_not_mem hClaimed, hNone] at hWaits
      exact Nat.lt_irrefl _ hWaits
    obtain ⟨first, rest, hFirst⟩ := List.exists_cons_of_ne_nil hQueue
    have hHead : s.pool.queue.head? = some first := by rw [hFirst, List.head?_cons]
    exact ⟨_, _, .take ⟨hHead, h.tallies.balanced.hasFreeWorker hQueue⟩⟩

theorem exists_append_of_getElem? (hParty : s.parties[k]? = some c) :
    ∃ front back, s.parties = front ++ c :: back ∧ front.length = k := by
  obtain ⟨hBound, rfl⟩ := List.getElem?_eq_some_iff.mp hParty
  refine ⟨s.parties.take k, s.parties.drop (k + 1), ?_, List.length_take_of_le hBound.le⟩
  rw [← List.drop_eq_getElem_cons hBound, List.take_append_drop]

/-- A job that can act is on a worker, where it ends if nothing is left of it. -/
theorem exists_step_of_over (hParty : s.parties[k]? = some c)
    (hOver : c.isOver = true) (hActs : s.Acts k) (hJob : ¬k < s.clients) : ∃ m s', s.Step m s' := by
  obtain hClient | hRuns | hOverflow := hActs
  · exact absurd hClient hJob
  · exact ⟨.complete k, _, .finish hParty hOver rfl hRuns⟩
  · exact ⟨.completeOverflow k, _, .finish hParty hOver rfl hOverflow⟩

/-- A job that has been accepted, that has not been run and is on no worker, waits for one. -/
theorem Sound.waiting_pos (h : Sound r s) (hAccepted : s.clients ≤ k ∧ k < s.parties.length)
    (hIdle : ¬s.Acts k) (hLeft : k ∉ s.pool.ran) : 0 < s.pool.waiting k := by
  have hCount : 0 < r.accepted.count k := by
    rw [List.count_pos_iff, h.accepted, List.mem_range'_1]
    omega
  have hNone : s.pool.begun k = 0 := by
    have hRuns : k ∉ s.pool.running ∧ k ∉ s.pool.overflow :=
      ⟨fun hMem => hIdle (.inr (.inl hMem)), fun hMem => hIdle (.inr (.inr hMem))⟩
    rw [Pool.begun, List.count_eq_zero_of_not_mem hRuns.1, List.count_eq_zero_of_not_mem hRuns.2,
      List.count_eq_zero_of_not_mem hLeft]
  have hPlaced := h.tallies.placed k
  omega

/-- A party that can act and is not finished does so, or it waits for a job that is open. -/
theorem Sound.exists_step_or_open (h : Sound r s) (hParty : s.parties[k]? = some c) (hActs : s.Acts k)
    (hLeft : ¬s.Finished k) :
    (∃ m s', s.Step m s') ∨ ∃ job ∈ c.submitted, ¬s.Settled job := by
  obtain ⟨front, back, hParties, rfl⟩ := exists_append_of_getElem? hParty
  obtain ⟨holding, submitted, answered, work⟩ := c
  cases holding with
  | some job =>
      have hClaimed : job ∈ s.pool.claimed := by
        rw [← List.count_pos_iff, h.held job, List.count_pos_iff]
        exact List.mem_filterMap.mpr ⟨_, List.mem_of_getElem? hParty, rfl⟩
      exact .inl ⟨_, _, .act hParties hActs .enqueue hClaimed⟩
  | none =>
      cases work with
      | submit job next =>
          rcases Nat.eq_zero_or_pos s.pool.idle with hBusy | hIdle
          · exact .inl ⟨_, _, .act hParties hActs .spawn hBusy⟩
          · exact .inl ⟨_, _, .act hParties hActs .claim hIdle⟩
      | answer next => exact .inl ⟨_, _, .act hParties hActs .answer trivial⟩
      | await which next =>
          by_cases hSettled : ∀ job, submitted[which]? = some job → s.Settled job
          · exact .inl ⟨_, _, .act hParties hActs (.resume hSettled) trivial⟩
          · simp only [not_forall] at hSettled
            obtain ⟨job, hGet, hOpen⟩ := hSettled
            exact .inr ⟨job, List.mem_of_getElem? hGet, hOpen⟩
      | halt panics =>
          refine .inl (exists_step_of_over hParty rfl hActs fun hClient => hLeft ?_)
          rw [Finished, if_pos hClient]
          exact ⟨_, hParty, rfl⟩

/-- As long as anything is left of some party, somebody can act. A party that waits for a job waits for a later
one, so at the end of the waiting there is one that can go on. -/
theorem Sound.exists_step (h : Sound r s) {k : Nat} {c : Conduct} (hParty : s.parties[k]? = some c)
    (hLeft : ¬s.Finished k) : ∃ m s', s.Step m s' := by
  induction hCount : s.parties.length - k using Nat.strongRecOn generalizing k c with
  | ind count ih =>
      have hBound := (List.getElem?_eq_some_iff.mp hParty).1
      by_cases hActs : s.Acts k
      · obtain hStep | ⟨job, hMem, hOpen⟩ := h.exists_step_or_open hParty hActs hLeft
        · exact hStep
        · obtain ⟨hLater, hJob, hLast⟩ := h.later hParty hMem
          refine ih (s.parties.length - job) (by omega) (List.getElem?_eq_getElem hLast) ?_ rfl
          rw [Finished, if_neg (Nat.not_lt.mpr hJob)]
          exact fun hRan => hOpen (.inl hRan)
      · have hJob : ¬k < s.clients := fun hClient => hActs (.inl hClient)
        rw [Finished, if_neg hJob] at hLeft
        exact h.exists_step_of_waiting (h.waiting_pos ⟨Nat.le_of_not_lt hJob, hBound⟩ hActs hLeft)

/-- What is left to be done. -/
def rank (s : Workshop) : Nat := (s.parties.map (·.work.cost)).sum + s.pool.pending

theorem Does.cost (does : s.Does c m c' added) :
    (m = .none ∧ c'.work.cost + (added.map (·.work.cost)).sum < c.work.cost) ∨
    (m ≠ .none ∧ c'.work.cost + (added.map (·.work.cost)).sum + 5 * m.accepted?.toList.length =
      c.work.cost) := by
  cases does with
  | claim | spawn =>
      refine .inr ⟨by simp, ?_⟩
      simp only [Conduct.new, Work.cost, Pool.Move.accepted?, Option.toList, List.map_cons, List.map_nil,
        List.sum_cons, List.sum_nil, List.length_singleton]
      omega
  | enqueue => exact .inr ⟨by simp, by simp⟩
  | resume => exact .inl ⟨rfl, Nat.lt_succ_self _⟩
  | answer => exact .inl ⟨rfl, Nat.lt_succ_self _⟩

/-- Every action leaves less to do. -/
theorem rank_lt_of_step (step : s.Step m s') : s'.rank < s.rank := by
  cases step with
  | @act c c' front back added m hParties hActs does hAllows =>
      simp only [rank, hParties, List.map_append, List.map_cons, List.sum_append, List.sum_cons]
      obtain ⟨rfl, hLess⟩ | ⟨hMove, hEqual⟩ := does.cost
      · have hSame : s.pool.after .none = s.pool := rfl
        rw [hSame]
        omega
      · have hPending := Pool.pending_after hAllows hMove
        omega
  | @finish job c m hParty hOver hEnds hAllows =>
      have hOwn : m ≠ .none ∧ m.accepted? = none := by cases m <;> simp at hEnds ⊢
      have hPending := Pool.pending_after hAllows hOwn.1
      rw [hOwn.2] at hPending
      exact Nat.add_lt_add_left hPending _
  | take hAllows => exact Nat.add_lt_add_left (Pool.pending_after hAllows nofun) _
  | restore hAllows => exact Nat.add_lt_add_left (Pool.pending_after hAllows nofun) _

/-- So no course goes on forever. -/
theorem Course.length_add_rank_le {start : Workshop} (course : Course start r s) :
    r.length + s.rank ≤ start.rank := by
  induction course with
  | start => simp
  | step prior last ih =>
      have hLess := rank_lt_of_step last
      rw [List.length_append, List.length_singleton]
      omega

theorem rank_opening (threads : Nat) (clients : List Work) :
    (opening threads clients).rank = (clients.map Work.cost).sum := by
  rw [rank, opening, List.map_map]
  rfl

theorem size_of_course {start : Workshop} (course : Course start r s) :
    s.pool.size = start.pool.size ∧ s.clients = start.clients := by
  induction course with
  | start => exact ⟨rfl, rfl⟩
  | step prior last ih =>
      cases last with
      | act hParties hActs does hAllows => exact ⟨(Pool.size_after hAllows).trans ih.1, ih.2⟩
      | finish hParty hOver hEnds hAllows => exact ⟨(Pool.size_after hAllows).trans ih.1, ih.2⟩
      | take hAllows => exact ⟨(Pool.size_after hAllows).trans ih.1, ih.2⟩
      | restore hAllows => exact ⟨(Pool.size_after hAllows).trans ih.1, ih.2⟩

/-- No job is accepted twice. -/
theorem Sound.count_accepted_le_one (h : Sound r s) (job : Nat) : r.accepted.count job ≤ 1 := by
  rw [h.accepted]
  exact List.nodup_iff_count_le_one.mp List.nodup_range' job

/-- Where nobody can act, all clients are done, and each job has been run. -/
theorem Sound.all_run (h : Sound r s) (hStuck : ∀ m s', ¬s.Step m s') :
    (∀ k < s.clients, ∃ c, s.parties[k]? = some c ∧ c.isOver = true) ∧
      ∀ job ∈ r.accepted, job ∈ s.pool.ran := by
  have hAll (k : Nat) (hLess : k < s.parties.length) : s.Finished k := by
    by_contra hLeft
    obtain ⟨m, s', step⟩ := h.exists_step (List.getElem?_eq_getElem hLess) hLeft
    exact hStuck m s' step
  constructor
  · intro k hClient
    have hDone := hAll k (Nat.lt_of_lt_of_le hClient h.clients_le)
    rwa [Finished, if_pos hClient] at hDone
  · intro job hMem
    rw [h.accepted, List.mem_range'_1] at hMem
    have hClients := h.clients_le
    have hDone := hAll job (by omega)
    rwa [Finished, if_neg (by omega)] at hDone

/-- A pool of any size, with clients who submit any jobs: some of these break off, some submit further jobs and
wait for them. In whatever order all of them take their actions, the core workers are accounted for at all
times, there are no more jobs in the queue than core workers that run none, and no job is begun or run
twice. No course is longer than the work, and it is not over before all clients are done and each job that
has been accepted has been begun once and run once, on a core worker or on an overflow worker. -/
theorem jobs_run_once (threads : Nat) (clients : List Work) {r : Pool.Record} {s : Workshop}
    (course : Course (opening threads clients) r s) :
    (s.pool.size = max threads 1 ∧
      s.pool.idle + s.pool.claimed.length + s.pool.queue.length +
        (s.pool.running.length + s.pool.returning) = s.pool.size) ∧
    s.pool.queue.length ≤ s.pool.size - s.pool.running.length ∧
    (∀ job, r.ended.count job ≤ r.started.count job ∧ r.started.count job ≤ r.accepted.count job ∧
      r.accepted.count job ≤ 1) ∧
    r.length ≤ (clients.map Work.cost).sum ∧
    ((∀ m s', ¬s.Step m s') →
      (∀ k < clients.length, ∃ c, s.parties[k]? = some c ∧ c.isOver = true) ∧
        ∀ job ∈ r.accepted, r.started.count job = 1 ∧ r.ended.count job = 1) := by
  have h := course.sound (sound_opening threads clients)
  have hBalanced : s.pool.idle + s.pool.claimed.length + s.pool.queue.length +
      s.pool.running.length + s.pool.returning = s.pool.size := h.tallies.balanced
  have hOrder (job : Nat) : r.ended.count job ≤ r.started.count job ∧
      r.started.count job ≤ r.accepted.count job := by
    have hPlaced := h.tallies.placed job
    have hBegun := h.tallies.begun job
    rw [← h.tallies.ran, ← hBegun, ← hPlaced, Pool.begun]
    omega
  have hOnce := h.count_accepted_le_one
  refine ⟨⟨(size_of_course course).1, by omega⟩, by omega,
    fun job => ⟨(hOrder job).1, (hOrder job).2, hOnce job⟩, ?_, fun hStuck => ?_⟩
  · have hLength := course.length_add_rank_le
    rw [rank_opening] at hLength
    omega
  · obtain ⟨hClients, hRan⟩ := h.all_run hStuck
    refine ⟨fun k hClient => hClients k ((size_of_course course).2 ▸ hClient), fun job hMem => ?_⟩
    have hEnded : 0 < r.ended.count job := by
      rw [← h.tallies.ran]
      exact List.count_pos_iff.mpr (hRan job hMem)
    have hLess := hOrder job
    have hMost := hOnce job
    omega

/-- A job that submits another one, waits for it, and breaks off. -/
def nested : Work := .submit (.halt false) (.await 0 (.halt true))

/-- The only core worker runs a job that waits for another one, which gets an overflow worker. -/
theorem course_nested :
    ∃ r s, Course (opening 1 [.submit nested (.halt false)]) r s ∧ s.rank = 0 ∧ r.accepted = [1, 2] := by
  have hClaimed : Course (opening 1 [.submit nested (.halt false)]) _ _ :=
    Course.start.step (.act (show _ = [] ++ _ :: [] from rfl) (.inl Nat.one_pos) .claim Nat.one_pos)
  have hQueued := hClaimed.step
    (.act (show _ = [] ++ _ :: [_] from rfl) (.inl Nat.one_pos) .enqueue (List.mem_singleton.mpr rfl))
  have hTaken := hQueued.step (.take ⟨rfl, rfl⟩)
  have hRuns : 1 ∈ [1] := List.mem_singleton.mpr rfl
  have hSpawned := hTaken.step (.act (show _ = [_] ++ _ :: [] from rfl) (.inr (.inl hRuns)) .spawn rfl)
  have hAside := hSpawned.step (m := .completeOverflow 2)
    (.finish (show _ = some (Conduct.new (.halt false)) from rfl) rfl rfl (List.mem_singleton.mpr rfl))
  have hResumed := hAside.step
    (.act (show _ = [_] ++ ⟨none, [2], false, .await 0 (.halt true)⟩ :: [_] from rfl) (.inr (.inl hRuns))
      (.resume fun job hGet => .inl (by obtain rfl := Option.some.inj hGet; exact List.mem_singleton.mpr rfl))
      trivial)
  have hCompleted := hResumed.step (m := .complete 1)
    (.finish (show _ = some ⟨none, [2], false, .halt true⟩ from rfl) rfl rfl hRuns)
  have hRestored := hCompleted.step (.restore Nat.one_pos)
  exact ⟨_, _, hRestored, rfl, rfl⟩

theorem jobs_run_once_nested :
    ∃ r s, Course (opening 1 [.submit nested (.halt false)]) r s ∧
      ∀ job ∈ [1, 2], r.started.count job = 1 ∧ r.ended.count job = 1 := by
  obtain ⟨r, s, course, hRank, hAccepted⟩ := course_nested
  obtain ⟨-, -, -, -, hEnd⟩ := jobs_run_once 1 _ course
  have hStuck : ∀ m s', ¬s.Step m s' := by
    intro m s' step
    exact Nat.not_lt_zero _ (hRank ▸ rank_lt_of_step step)
  exact ⟨r, s, course, hAccepted ▸ (hEnd hStuck).2⟩

end Workshop

end SolutionFlow
