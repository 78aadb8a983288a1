import Mathlib.Data.List.Perm.Basic
import SolutionFlow.Pool.Basic

/-! Moves of a worker pool: what can happen to its counter, its queue and its workers at once. Each move is
allowed where the pool is ready for it. The workers are all accounted for, a job is always in one place,
and a move that does not bring a new job brings one of them nearer to its end. -/
namespace SolutionFlow

namespace Pool

/-- What happens to a pool. A job claims a worker or gets an overflow worker, is put into the queue, is taken
from there, or ends on a core worker or on an overflow worker; a core worker is back; or it is nothing
to the pool. -/
inductive Move where
  | claim (job : Nat)
  | spawn (job : Nat)
  | enqueue (job : Nat)
  | take (job : Nat)
  | complete (job : Nat)
  | completeOverflow (job : Nat)
  | restore
  | none

namespace Move

/-- The job that is accepted. -/
def accepted? : Move → Option Nat
  | .claim job | .spawn job => some job
  | _ => Option.none

/-- The job that a worker begins to run. -/
def started? : Move → Option Nat
  | .take job | .spawn job => some job
  | _ => Option.none

/-- The job that has been run. -/
def ended? : Move → Option Nat
  | .complete job | .completeOverflow job => some job
  | _ => Option.none

/-- The job that has claimed a worker. -/
def claimed? : Move → Option Nat
  | .claim job => some job
  | _ => Option.none

/-- The job that is put into the queue. -/
def queued? : Move → Option Nat
  | .enqueue job => some job
  | _ => Option.none

end Move

attribute [simp] Move.accepted? Move.started? Move.ended? Move.claimed? Move.queued?

/-- The moves that have been made, in order. -/
abbrev Record := List Move

namespace Record

/-- The jobs that have been accepted. -/
def accepted (r : Record) : List Nat := r.filterMap Move.accepted?

/-- The jobs that a worker has begun to run. -/
def started (r : Record) : List Nat := r.filterMap Move.started?

/-- The jobs that have been run. -/
def ended (r : Record) : List Nat := r.filterMap Move.ended?

variable (r : Record) (m : Move)

theorem filterMap_concat (f : Move → Option Nat) :
    (r ++ [m]).filterMap f = r.filterMap f ++ (f m).toList := by
  rw [List.filterMap_append, List.filterMap_cons]
  cases f m <;> rfl

@[simp]
theorem accepted_concat : accepted (r ++ [m]) = r.accepted ++ m.accepted?.toList := filterMap_concat ..

@[simp]
theorem started_concat : started (r ++ [m]) = r.started ++ m.started?.toList := filterMap_concat ..

@[simp]
theorem ended_concat : ended (r ++ [m]) = r.ended ++ m.ended?.toList := filterMap_concat ..

end Record

variable {p : Pool} {m : Move} {job : Nat}

/-- When something can happen to a pool. It is settled when a job claims a worker whether it gets an overflow
worker: no worker is idle then. The job is in the hands of this worker from there on, however late the worker
starts and whoever is idle by that time. -/
def Allows (p : Pool) : Move → Prop
  | .claim _ => 0 < p.idle
  | .spawn _ => p.idle = 0
  | .enqueue job => job ∈ p.claimed
  | .take job => p.queue.head? = some job ∧ p.hasFreeWorker = true
  | .complete job => job ∈ p.running
  | .completeOverflow job => job ∈ p.overflow
  | .restore => 0 < p.returning
  | .none => True

/-- The pool after a move. -/
def after (p : Pool) : Move → Pool
  | .claim job | .spawn job => p.claim job
  | .enqueue job => p.enqueue job
  | .take _ => p.take
  | .complete job => p.complete job
  | .completeOverflow job => p.completeOverflow job
  | .restore => p.restore
  | .none => p

theorem after_claim (h : p.Allows (.claim job)) :
    p.after (.claim job) = { p with idle := p.idle - 1, claimed := p.claimed ++ [job] } :=
  if_pos h

theorem after_spawn (h : p.Allows (.spawn job)) :
    p.after (.spawn job) =
      { p with overflow := p.overflow ++ [job], overflowCount := p.overflowCount + 1 } :=
  if_neg (Nat.not_lt_of_le (Nat.le_of_eq h))

theorem after_enqueue (h : p.Allows (.enqueue job)) :
    p.after (.enqueue job) =
      { p with claimed := p.claimed.erase job, queue := p.queue ++ [job] } :=
  if_pos h

theorem after_take (h : p.Allows (.take job)) :
    ∃ rest, p.queue = job :: rest ∧
      p.after (.take job) = { p with queue := rest, running := p.running ++ [job] } := by
  obtain ⟨hHead, hFree⟩ := h
  obtain ⟨rest, hQueue⟩ := List.head?_eq_some_iff.mp hHead
  refine ⟨rest, hQueue, ?_⟩
  simp only [after, take, hQueue, hFree, if_true]

theorem after_complete (h : p.Allows (.complete job)) :
    p.after (.complete job) =
      { p with
        running := p.running.erase job, returning := p.returning + 1, ran := p.ran ++ [job] } :=
  if_pos h

theorem after_completeOverflow (h : p.Allows (.completeOverflow job)) :
    p.after (.completeOverflow job) =
      { p with overflow := p.overflow.erase job, ran := p.ran ++ [job] } :=
  if_pos h

theorem after_restore (h : p.Allows .restore) :
    p.after .restore = { p with returning := p.returning - 1, idle := p.idle + 1 } :=
  if_pos h

/-- How often a job waits for a worker, with its claim or in the queue. -/
def waiting (p : Pool) (job : Nat) : Nat := p.claimed.count job + p.queue.count job

/-- How often a job is on a worker or has been run. -/
def begun (p : Pool) (job : Nat) : Nat :=
  p.running.count job + p.overflow.count job + p.ran.count job

/-- All core workers are accounted for: each is idle, or claimed for a job that is not queued yet or that is in
the queue, or runs a job, or is done with one and not back. -/
def Balanced (p : Pool) : Prop :=
  p.idle + p.claimed.length + p.queue.length + p.running.length + p.returning = p.size

theorem balanced_new (threads : Nat) : (new threads).Balanced := rfl

/-- What the jobs in the pool still have to go through. -/
def pending (p : Pool) : Nat :=
  4 * p.claimed.length + 3 * p.queue.length + 2 * p.running.length + p.returning + p.overflow.length

theorem count_erase_add {jobs : List Nat} (h : job ∈ jobs) (other : Nat) :
    (jobs.erase job).count other + [job].count other = jobs.count other := by
  have hPerm : (jobs.erase job ++ [job]).Perm jobs :=
    (List.perm_append_singleton job _).trans (List.perm_cons_erase h).symm
  rw [← hPerm.count_eq other, List.count_append]

theorem length_erase_add {jobs : List Nat} (h : job ∈ jobs) :
    (jobs.erase job).length + 1 = jobs.length := by
  rw [(List.perm_cons_erase h).length_eq, List.length_cons]

theorem size_after (h : p.Allows m) : (p.after m).size = p.size := by
  cases m with
  | claim job => rw [after_claim h]
  | spawn job => rw [after_spawn h]
  | enqueue job => rw [after_enqueue h]
  | take job =>
      obtain ⟨rest, -, hAfter⟩ := after_take h
      rw [hAfter]
  | complete job => rw [after_complete h]
  | completeOverflow job => rw [after_completeOverflow h]
  | restore => rw [after_restore h]
  | none => rfl

/-- No move loses a core worker or makes one up. -/
theorem Balanced.after (hBalanced : p.Balanced) (h : p.Allows m) : (p.after m).Balanced := by
  unfold Balanced at *
  cases m with
  | claim job =>
      have hIdle : 0 < p.idle := h
      simp only [after_claim h, List.length_append, List.length_singleton]
      omega
  | spawn job =>
      simp only [after_spawn h]
      exact hBalanced
  | enqueue job =>
      have hClaimed := length_erase_add h
      simp only [after_enqueue h, List.length_append, List.length_singleton]
      omega
  | take job =>
      obtain ⟨rest, hQueue, hAfter⟩ := after_take h
      rw [hQueue, List.length_cons] at hBalanced
      simp only [hAfter, List.length_append, List.length_singleton]
      omega
  | complete job =>
      have hRunning := length_erase_add h
      simp only [after_complete h]
      omega
  | completeOverflow job =>
      simp only [after_completeOverflow h]
      exact hBalanced
  | restore =>
      have hReturning : 0 < p.returning := h
      simp only [after_restore h]
      omega
  | none => exact hBalanced

/-- A job is begun when a worker takes it or is started for it, and at no other time. -/
theorem begun_after (h : p.Allows m) (other : Nat) :
    (p.after m).begun other = p.begun other + m.started?.toList.count other := by
  unfold begun
  cases m with
  | claim job => simp [after_claim h]
  | spawn job =>
      simp only [after_spawn h, Move.started?, Option.toList, List.count_append]
      omega
  | enqueue job => simp [after_enqueue h]
  | take job =>
      obtain ⟨rest, -, hAfter⟩ := after_take h
      simp only [hAfter, Move.started?, Option.toList, List.count_append]
      omega
  | complete job =>
      have hRunning := count_erase_add h other
      simp only [after_complete h, Move.started?, Option.toList, List.count_append, List.count_nil]
      omega
  | completeOverflow job =>
      have hOverflow := count_erase_add h other
      simp only [after_completeOverflow h, Move.started?, Option.toList, List.count_append, List.count_nil]
      omega
  | restore => simp [after_restore h]
  | none => rfl

/-- A job that is accepted waits until it is begun. -/
theorem waiting_after (h : p.Allows m) (other : Nat) :
    (p.after m).waiting other + m.started?.toList.count other =
      p.waiting other + m.accepted?.toList.count other := by
  unfold waiting
  cases m with
  | claim job =>
      simp only [after_claim h, Move.started?, Move.accepted?, Option.toList, List.count_append,
        List.count_nil]
      omega
  | spawn job => simp [after_spawn h]
  | enqueue job =>
      have hClaimed := count_erase_add h other
      simp only [after_enqueue h, Move.started?, Move.accepted?, Option.toList, List.count_append,
        List.count_nil]
      omega
  | take job =>
      obtain ⟨rest, hQueue, hAfter⟩ := after_take h
      have hCount : p.queue.count other = [job].count other + rest.count other := by
        rw [hQueue, ← List.singleton_append, List.count_append]
      simp only [hAfter, Move.started?, Move.accepted?, Option.toList, List.count_nil]
      omega
  | complete job => simp [after_complete h]
  | completeOverflow job => simp [after_completeOverflow h]
  | restore => simp [after_restore h]
  | none => rfl

theorem claimed_after (h : p.Allows m) (other : Nat) :
    (p.after m).claimed.count other + m.queued?.toList.count other =
      p.claimed.count other + m.claimed?.toList.count other := by
  cases m with
  | claim job => simp [after_claim h]
  | spawn job => simp [after_spawn h]
  | enqueue job =>
      simp only [after_enqueue h]
      exact count_erase_add h other
  | take job =>
      obtain ⟨rest, -, hAfter⟩ := after_take h
      simp [hAfter]
  | complete job => simp [after_complete h]
  | completeOverflow job => simp [after_completeOverflow h]
  | restore => simp [after_restore h]
  | none => rfl

/-- Some worker runs the job. -/
def Runs (p : Pool) (job : Nat) : Prop := job ∈ p.running ∨ job ∈ p.overflow

/-- A job stays on its worker until it ends. -/
theorem Runs.after {other : Nat} (hRuns : p.Runs other) (h : p.Allows m) (hStays : m.ended? ≠ some other) :
    (p.after m).Runs other := by
  unfold Runs at *
  cases m with
  | claim job => simpa only [after_claim h] using hRuns
  | spawn job => simpa only [after_spawn h] using hRuns.imp_right (List.mem_append_left _)
  | enqueue job => simpa only [after_enqueue h] using hRuns
  | take job =>
      obtain ⟨rest, -, hAfter⟩ := after_take h
      simpa only [hAfter] using hRuns.imp_left (List.mem_append_left _)
  | complete job =>
      have hOther : other ≠ job := fun hSame => hStays (congrArg some hSame.symm)
      simpa only [after_complete h, List.mem_erase_of_ne hOther] using hRuns
  | completeOverflow job =>
      have hOther : other ≠ job := fun hSame => hStays (congrArg some hSame.symm)
      simpa only [after_completeOverflow h, List.mem_erase_of_ne hOther] using hRuns
  | restore => simpa only [after_restore h] using hRuns
  | none => exact hRuns

theorem ran_after (h : p.Allows m) : (p.after m).ran = p.ran ++ m.ended?.toList := by
  cases m with
  | take job =>
      obtain ⟨rest, -, hAfter⟩ := after_take h
      simp [hAfter]
  | claim job => simp [after_claim h]
  | spawn job => simp [after_spawn h]
  | enqueue job => simp [after_enqueue h]
  | complete job => simp [after_complete h]
  | completeOverflow job => simp [after_completeOverflow h]
  | restore => simp [after_restore h]
  | none => simp [after]

/-- A job that has been accepted has less to go through with each move. -/
theorem pending_after (h : p.Allows m) (hMove : m ≠ .none) :
    (p.after m).pending < p.pending + 5 * m.accepted?.toList.length := by
  unfold pending
  cases m with
  | claim job =>
      simp only [after_claim h, Move.accepted?, Option.toList, List.length_append, List.length_singleton]
      omega
  | spawn job =>
      simp only [after_spawn h, Move.accepted?, Option.toList, List.length_append, List.length_singleton]
      omega
  | enqueue job =>
      have hClaimed := length_erase_add h
      simp only [after_enqueue h, List.length_append, List.length_singleton]
      omega
  | take job =>
      obtain ⟨rest, hQueue, hAfter⟩ := after_take h
      simp only [hAfter, hQueue, List.length_append, List.length_cons, List.length_nil]
      omega
  | complete job =>
      have hRunning := length_erase_add h
      simp only [after_complete h]
      omega
  | completeOverflow job =>
      have hOverflow := length_erase_add h
      simp only [after_completeOverflow h]
      omega
  | restore =>
      have hReturning : 0 < p.returning := h
      simp only [after_restore h]
      omega
  | none => exact absurd rfl hMove

/-- A job that is queued finds a core worker waiting. -/
theorem Balanced.hasFreeWorker (h : p.Balanced) (hQueue : p.queue ≠ []) : p.hasFreeWorker = true := by
  have hSome := List.length_pos_iff.mpr hQueue
  unfold Balanced at h
  exact decide_eq_true (by omega)

/-- What is known of a pool from the moves that have been made: its workers are accounted for, each job that has
been accepted waits or has been begun, and the others have no place in it. -/
structure Tallies (r : Record) (p : Pool) : Prop where
  balanced : p.Balanced
  placed : ∀ job, p.waiting job + p.begun job = r.accepted.count job
  begun : ∀ job, p.begun job = r.started.count job
  ran : p.ran = r.ended

theorem tallies_new (threads : Nat) : Tallies [] (new threads) :=
  ⟨balanced_new threads, fun _ => rfl, fun _ => rfl, rfl⟩

theorem Tallies.after {r : Record} (hTallies : Tallies r p) (h : p.Allows m) :
    Tallies (r ++ [m]) (p.after m) where
  balanced := hTallies.balanced.after h
  placed job := by
    have hWaiting := waiting_after h job
    have hBegun := begun_after h job
    rw [Record.accepted_concat, List.count_append, ← hTallies.placed job]
    omega
  begun job := by
    rw [begun_after h, Record.started_concat, List.count_append, hTallies.begun job]
  ran := by rw [ran_after h, Record.ended_concat, hTallies.ran]

end Pool

end SolutionFlow
