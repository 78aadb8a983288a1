/-!
Worker pools: a fixed number of core workers with a queue, and overflow workers that are started
when no core worker is idle.

A submitted job claims an idle worker and is then put into the queue; without an idle worker it gets
an overflow worker of its own. The number of idle workers is a counter of the submitters, which a
worker only raises when it is back from a job.
-/

namespace SolutionFlow

/-- A pool with jobs that are known by their numbers: those that have claimed a worker but are not
queued yet, those in the queue, those on core workers and those on overflow workers. `returning`
core workers are done with their jobs but not back yet. -/
structure Pool where
  size : Nat
  idle : Nat
  claimed : List Nat
  queue : List Nat
  running : List Nat
  returning : Nat
  overflow : List Nat
  overflowCount : Nat
  ran : List Nat

namespace Pool

/-- A pool of the given number of workers, but at least of one. -/
def new (threads : Nat) : Pool :=
  let size := max threads 1
  ⟨size, size, [], [], [], 0, [], 0, []⟩

/-- Claims an idle worker for a job, or starts an overflow worker for it. -/
def claim (p : Pool) (job : Nat) : Pool :=
  if 0 < p.idle then { p with idle := p.idle - 1, claimed := p.claimed ++ [job] }
  else { p with overflow := p.overflow ++ [job], overflowCount := p.overflowCount + 1 }

/-- Puts a job that has claimed a worker into the queue. -/
def enqueue (p : Pool) (job : Nat) : Pool :=
  if job ∈ p.claimed then { p with claimed := p.claimed.erase job, queue := p.queue ++ [job] }
  else p

/-- Whether some core worker waits for a job. -/
def hasFreeWorker (p : Pool) : Bool := decide (p.running.length + p.returning < p.size)

/-- Gives the first job of the queue to a core worker that waits for one. -/
def take (p : Pool) : Pool :=
  match p.queue with
  | [] => p
  | job :: rest =>
    if p.hasFreeWorker then { p with queue := rest, running := p.running ++ [job] } else p

/-- Ends a job on a core worker, whether it returns or breaks off. -/
def complete (p : Pool) (job : Nat) : Pool :=
  if job ∈ p.running then
    { p with
      running := p.running.erase job, returning := p.returning + 1, ran := p.ran ++ [job] }
  else p

/-- Counts a core worker that is back from a job as idle. -/
def restore (p : Pool) : Pool :=
  if 0 < p.returning then { p with returning := p.returning - 1, idle := p.idle + 1 } else p

/-- Ends a job on an overflow worker. -/
def completeOverflow (p : Pool) (job : Nat) : Pool :=
  if job ∈ p.overflow then { p with overflow := p.overflow.erase job, ran := p.ran ++ [job] } else p

/-- Submits a job. -/
def submit (p : Pool) (job : Nat) : Pool := (p.claim job).enqueue job

/-- Submits some jobs while none of them ends. -/
def submitAll (p : Pool) (jobs : List Nat) : Pool := jobs.foldl submit p

/-- Runs jobs from the queue, one at a time, as many as `count` says. -/
def runQueue : Nat → Pool → Pool
  | 0, p => p
  | count + 1, p =>
    let p := p.take
    runQueue count (p.running.foldl (fun p job => (p.complete job).restore) p)

/-- Lets all jobs end. -/
def finishAll (p : Pool) : Pool :=
  let p := p.overflow.foldl completeOverflow p
  runQueue (p.queue.length + 1) p

end Pool

end SolutionFlow
