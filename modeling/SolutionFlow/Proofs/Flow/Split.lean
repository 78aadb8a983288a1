import Mathlib.Algebra.GroupWithZero.Nat
import SolutionFlow.Proofs.Flow.Run
import SolutionFlow.Proofs.Flow.Weave

/-! Runs taken apart. A run of an operator above its arguments consists of a run of each argument
and a weave of what they have said. With it, what is known of weaves becomes known of queries. -/
namespace SolutionFlow

/-- An argument under way: what it has been started on and has said, how many steps its jobs have
made, and its process. -/
structure Thread where
  strand : Operator.Strand
  steps : Nat
  process : Process

namespace Thread

/-- What a thread has come to is a run of `start`. -/
def Runs (env : Environment) (start : Emission Process) (thread : Thread) : Prop :=
  Run env start thread.steps thread.strand.trace thread.process

/-- A thread after a step in which it has said some things. -/
def advance (thread : Thread) (heard : Trace) (process : Process) : Thread where
  strand := thread.strand.say heard
  steps := thread.steps + 1
  process := process

theorem Runs.advance {env : Environment} {start : Emission Process} {thread : Thread}
    {heard : Trace} {path : List Nat} {process : Process} (h : thread.Runs env start)
    (hLive : thread.process.Live path)
    (hSays : (thread.process.deliver env path).Says heard process) :
    (thread.advance heard process).Runs env start :=
  h.step hLive hSays

end Thread

namespace Operator.Weaves

variable {env : Environment} {start op op' : Operator} {opened strands : List Strand}
  {lead said : Trace} {spawn : Solution → Emission Process}

/-- What the first argument goes on to say brings threads for the branches that it opens. -/
theorem passes_lead (weave : Weaves env start opened op lead strands said)
    (hCounts : start.Counts opened.length)
    (hSpawn : ∀ {op lead strands said e t op' seeds}, Weaves env start opened op lead strands said →
      op.Hears env e t op' seeds → ∀ seed ∈ seeds, start.spawn env seed = spawn seed)
    {heard t : Trace} {processes processes' : List Process}
    (passes : (Operator.lead env (start.spawn env)).Passes (op, processes) heard t
      (op', processes')) :
    ∃ threads : List Thread, processes' = processes ++ threads.map (·.process) ∧
      (∀ thread ∈ threads, thread.steps = 0 ∧ thread.Runs env (spawn thread.strand.seed)) ∧
      Weaves env start opened op' (lead ++ heard) (strands ++ threads.map (·.strand))
        (said ++ t) := by
  generalize hState : (op', processes') = state at passes
  induction passes generalizing op' processes' with
  | nil =>
      obtain ⟨rfl, rfl⟩ := Prod.mk.inj hState
      exact ⟨[], by simp, by simp, by simpa using weave⟩
  | snoc prior last ih =>
      rename_i heard t u e middle state
      subst hState
      obtain ⟨op₁, processes₁⟩ := middle
      obtain ⟨threads, rfl, hThreads, hWeave⟩ := ih rfl
      have hNow : op₁.Counts (strands ++ threads.map (·.strand)).length := hWeave.spawn_eq.2 hCounts
      obtain ⟨hHears, rfl⟩ | ⟨op₂, seed, more, child, hHears, hSays, hPasses, rfl⟩ :=
        hears_of_relays hNow last
      · have next := hWeave.lead hHears
        exact ⟨threads, rfl, hThreads, by simpa using next⟩
      · have hSeed := hSpawn hWeave hHears seed (by simp)
        have next := hWeave.lead hHears
        have hGet : (strands ++ threads.map (·.strand) ++ [seed].map Strand.new)[(strands ++
            threads.map (·.strand)).length]? = some (Strand.new seed) := by
          simp
        have all := next.passes_branch hGet hPasses
        refine ⟨threads ++ [⟨(Strand.new seed).say more, 0, child⟩], by simp, ?_, ?_⟩
        · intro thread hMem
          rcases List.mem_append.mp hMem with hOld | hNew
          · exact hThreads thread hOld
          · obtain rfl := List.mem_singleton.mp hNew
            exact ⟨rfl, .start (hSeed ▸ hSays)⟩
        · simpa using all

end Operator.Weaves

/-- A run of an operator above its arguments, taken apart: the runs of its arguments, and how they
are woven together. -/
structure Split (env : Environment) (start : Operator) (opened : List Operator.Strand)
    (first : Emission Process) (spawn : Solution → Emission Process) (steps : Nat) (t : Trace)
    (p : Process) where
  op : Operator
  leadSteps : Nat
  lead : Trace
  child : Process
  threads : List Thread
  process_eq : p = .node op (child :: threads.map (·.process))
  steps_eq : steps = leadSteps + (threads.map (·.steps)).sum
  weaves : Operator.Weaves env start opened op lead (threads.map (·.strand)) t
  lead_runs : Run env first leadSteps lead child
  threads_run : ∀ thread ∈ threads, thread.Runs env (spawn thread.strand.seed)

namespace Split

variable {env : Environment} {start : Operator} {opened : List Operator.Strand}
  {first : Emission Process} {spawn : Solution → Emission Process} {steps : Nat} {t u : Trace}
  {p q : Process}

/-- The arguments are over when the operator above them is. -/
theorem finished_iff (split : Split env start opened first spawn steps t p) :
    p.Finished ↔ split.child.Finished ∧ ∀ thread ∈ split.threads, thread.process.Finished := by
  obtain ⟨op, leadSteps, lead, child, threads, rfl, -, -, -, -⟩ := split
  rw [Process.finished_node, List.forall_mem_cons, List.forall_mem_map]

/-- A union has no other arguments than those that were open at first. -/
theorem threads_union {c : Completion}
    (split : Split env (.union c) opened first spawn steps t p) (hOpened : opened.length = 1) :
    ∃ other, split.threads = [other] := by
  obtain ⟨-, hLength⟩ := split.weaves.wrapped (fun _ => rfl) (fun _ _ => rfl)
  rw [List.length_map, hOpened] at hLength
  exact List.length_eq_one_iff.mp hLength

/-- A step of one of the arguments carries its run on. -/
theorem step (split : Split env start opened first spawn steps t p)
    (hCounts : start.Counts opened.length)
    (hSpawn : ∀ {op lead strands said e t op' seeds},
      Operator.Weaves env start opened op lead strands said → op.Hears env e t op' seeds →
        ∀ seed ∈ seeds, start.spawn env seed = spawn seed)
    {path : List Nat} (hLive : p.Live path) (hSays : (p.deliver env path).Says u q) :
    Nonempty (Split env start opened first spawn (steps + 1) (t ++ u) q) := by
  obtain ⟨op, leadSteps, lead, first, threads, rfl, rfl, hWeave, hLead, hThreads⟩ := split
  match path, hLive with
  | 0 :: path, ⟨child, hGet, hLive⟩ =>
      obtain rfl : first = child := by simpa using hGet
      rw [Process.deliver_lead] at hSays
      simp only [Emission.says_bind, Emission.says_pure] at hSays
      obtain ⟨t₁, ⟨child, op', opened'⟩, _, hThrough, ⟨rfl, rfl⟩, rfl⟩ := hSays
      obtain ⟨heard, hChild, hPasses⟩ := Pipe.passes_of_through hThrough
      rw [hWeave.spawn_eq.1] at hPasses
      obtain ⟨more, hOpened, hMore, hNext⟩ := hWeave.passes_lead hCounts hSpawn hPasses
      have hSteps : (more.map (·.steps)).sum = 0 := by
        rw [List.sum_eq_zero_iff_forall_eq_nat, List.forall_mem_map]
        exact fun thread hMem => (hMore thread hMem).1
      refine ⟨op', leadSteps + 1, lead ++ heard, child, threads ++ more, ?_, ?_, ?_,
        hLead.step hLive hChild, ?_⟩
      · simpa using hOpened
      · simp [hSteps]
        omega
      · simpa using hNext
      · intro thread hMem
        rcases List.mem_append.mp hMem with hOld | hNew
        · exact hThreads thread hOld
        · exact (hMore thread hNew).2
  | (k + 1) :: path, ⟨child, hGet, hLive⟩ =>
      obtain ⟨thread, hThread, rfl⟩ : ∃ thread, threads[k]? = some thread ∧
          thread.process = child := by simpa using hGet
      rw [Process.deliver_branch env op hGet] at hSays
      simp only [Emission.says_bind, Emission.says_pure] at hSays
      obtain ⟨t₁, ⟨child, op'⟩, _, hThrough, ⟨rfl, rfl⟩, rfl⟩ := hSays
      obtain ⟨heard, hChild, hPasses⟩ := Pipe.passes_of_through hThrough
      have hStrand : (threads.map (·.strand))[k]? = some thread.strand := by simp [hThread]
      have hNext := hWeave.passes_branch hStrand hPasses
      refine ⟨op', leadSteps, lead, first, threads.set k (thread.advance heard child), ?_, ?_, ?_,
        hLead, ?_⟩
      · simp [List.map_set, Thread.advance]
      · obtain ⟨before, after, rfl, hSet⟩ := exists_around hThread
        rw [hSet]
        simp [Thread.advance]
        omega
      · simpa [List.map_set, Thread.advance] using hNext
      · intro other hMem
        rcases List.mem_or_eq_of_mem_set hMem with hOld | rfl
        · exact hThreads other hOld
        · exact (hThreads thread (List.mem_of_getElem? hThread)).advance hLive hChild

end Split

namespace Process

variable {env : Environment} {steps : Nat} {t : Trace} {p : Process}

/-- A run of an operator that starts its branches itself takes apart. -/
theorem split_under {start : Operator} {first : Emission Process}
    (run : Run env (under env start (start.spawn env) first) steps t p) (hCounts : start.Counts 0) :
    Nonempty (Split env start [] first (start.spawn env) steps t p) := by
  induction run with
  | start hStart =>
      simp only [under, Emission.says_bind, Emission.says_pure] at hStart
      obtain ⟨t₁, ⟨child, op, opened⟩, _, hThrough, ⟨rfl, rfl⟩, rfl⟩ := hStart
      obtain ⟨heard, hFirst, hPasses⟩ := Pipe.passes_of_through hThrough
      have hNil : Operator.Weaves env start [] start [] [] [] := .nil
      obtain ⟨threads, rfl, hThreads, hWeave⟩ :=
        hNil.passes_lead hCounts (fun _ _ _ _ => rfl) hPasses
      have hSteps : (threads.map (·.steps)).sum = 0 := by
        rw [List.sum_eq_zero_iff_forall_eq_nat, List.forall_mem_map]
        exact fun thread hMem => (hThreads thread hMem).1
      exact ⟨op, 0, heard, child, threads, rfl, by simp [hSteps], by simpa using hWeave,
        .start hFirst, fun thread hMem => (hThreads thread hMem).2⟩
  | step prior hLive last ih =>
      obtain ⟨split⟩ := ih
      exact split.step hCounts (fun _ _ _ _ => rfl) hLive last

/-- A run of an operator of one argument is a run of the argument that passes through it. -/
theorem passes_underOne {σ : Type} {pipe : Pipe σ} {wrap : σ → Operator} {first : σ}
    {arg : Emission Process} (hOpens : ∀ s, (wrap s).opens = false)
    (hReact : ∀ k s, (wrap s).react env k = pipe.react s wrap)
    (run : Run env (underOne env (wrap first) arg) steps t p) :
    ∃ heard child s, Run env arg steps heard child ∧ pipe.Passes first heard t s ∧
      (p.Finished ↔ child.Finished) := by
  have hSpawn : (wrap first).spawn env = fun _ => return .idle := by
    have hOpen := hOpens first
    cases hWrap : wrap first <;> first | rfl | simp [hWrap, Operator.opens] at hOpen
  have hCounts : (wrap first).Counts 0 := by
    have hOpen := hOpens first
    intro m hSome
    cases hWrap : wrap first <;> simp [hWrap, Operator.opens, Operator.branchCount] at hOpen hSome
  rw [underOne, ← hSpawn] at run
  obtain ⟨split⟩ := split_under run hCounts
  obtain ⟨op, leadSteps, lead, child, threads, rfl, rfl, hWeave, hLead, -⟩ := split
  obtain ⟨hNone, s, -, hPasses⟩ := hWeave.passes hOpens hReact
  obtain rfl : threads = [] := List.map_eq_nil_iff.mp hNone
  exact ⟨lead, child, s, hLead, hPasses, by simp⟩

/-- A run of a union takes apart into runs of both of its arguments. -/
theorem split_underUnion {left right : Emission Process} (seed : Solution)
    (run : Run env (underUnion env left right) steps t p) :
    Nonempty (Split env (.union (.new 2)) [.new seed] left (fun _ => right) steps t p) := by
  induction run with
  | start hStart =>
      simp only [underUnion, Emission.says_bind, Emission.says_pure] at hStart
      obtain ⟨t₁, ⟨leftChild, op⟩, _, hLeft, ⟨t₂, ⟨rightChild, op'⟩, _, hRight, ⟨rfl, rfl⟩, rfl⟩,
        rfl⟩ := hStart
      obtain ⟨lead, hLeadSays, hLeadPasses⟩ := Pipe.passes_of_through hLeft
      obtain ⟨heard, hRightSays, hRightPasses⟩ := Pipe.passes_of_through hRight
      have hNil : Operator.Weaves env (.union (.new 2)) [.new seed] _ [] _ [] := .nil
      have hLead := hNil.passes_first (fun _ => rfl) (fun _ _ => rfl) hLeadPasses
      have hBoth := hLead.passes_branch (k := 0) rfl hRightPasses
      exact ⟨op', 0, lead, leftChild, [⟨(Operator.Strand.new seed).say heard, 0, rightChild⟩], rfl,
        rfl, by simpa using hBoth, .start hLeadSays, by simpa using .start hRightSays⟩
  | step prior hLive last ih =>
      obtain ⟨split⟩ := ih
      refine split.step (fun _ hSome => by simp [Operator.branchCount] at hSome) ?_ hLive last
      intro op lead strands said e t op' seeds weave hHears seed hMem
      obtain ⟨⟨s, rfl⟩, -⟩ := weave.wrapped (fun _ => rfl) (fun _ _ => rfl)
      obtain ⟨-, rfl⟩ := (Operator.hears_iff rfl).mp hHears
      simp at hMem

end Process

namespace Plan

open Process

variable {env : Environment} {left right : Plan} {seed : Solution} {scope : Scope} {steps : Nat}
  {t : Trace} {p : Process}

theorem split_join (run : Run env ((join left right).start env seed scope) steps t p) :
    Nonempty (Split env (.join ⟨right, scope.descend, .new 1⟩) []
      (left.start env seed scope.descend) (fun row => right.start env row scope.descend)
      steps t p) := by
  let op : Operator := .join ⟨right, scope.descend, .new 1⟩
  have run : Run env (under env op (op.spawn env) (left.start env seed scope.descend)) steps t p :=
    run
  exact split_under run fun m hSome => by simp [Operator.branchCount] at hSome

theorem split_union (run : Run env ((union left right).start env seed scope) steps t p) :
    Nonempty (Split env (.union (.new 2)) [.new seed] (left.start env seed scope.descend)
      (fun _ => right.start env seed scope.descend) steps t p) :=
  split_underUnion seed run

/-- The inner part of a left join, without the correction of its rows. -/
def startLeftJoin (env : Environment) (left right : Plan) (condition : Option Expr)
    (seed : Solution) (scope : Scope) : Emission Process :=
  under env (.leftJoin ⟨right, condition, left.bindingNames ++ right.bindingNames, scope.descend,
      .new 1, []⟩)
    (fun row => right.start env row scope.descend) (left.start env seed scope.descend)

theorem split_leftJoin {condition : Option Expr}
    (run : Run env (startLeftJoin env left right condition seed scope) steps t p) :
    Nonempty (Split env (.leftJoin ⟨right, condition, left.bindingNames ++ right.bindingNames,
        scope.descend, .new 1, []⟩) []
      (left.start env seed scope.descend) (fun row => right.start env row scope.descend)
      steps t p) := by
  let op : Operator := .leftJoin ⟨right, condition, left.bindingNames ++ right.bindingNames,
    scope.descend, .new 1, []⟩
  have run : Run env (under env op (op.spawn env) (left.start env seed scope.descend)) steps t p :=
    run
  exact split_under run fun m hSome => (Option.some.inj hSome).symm

theorem split_setFilter {op : SetOperator}
    (run : Run env (under env (.setFilter ⟨op, left, seed, scope.descend, .new env.spill⟩)
      (fun row => left.start env row scope.descend) (right.start env seed scope.descend))
      steps t p) :
    Nonempty (Split env (.setFilter ⟨op, left, seed, scope.descend, .new env.spill⟩) []
      (right.start env seed scope.descend) (fun row => left.start env row scope.descend)
      steps t p) := by
  let filter : Operator := .setFilter ⟨op, left, seed, scope.descend, .new env.spill⟩
  have run : Run env (under env filter (filter.spawn env) (right.start env seed scope.descend))
      steps t p := run
  exact split_under run fun m hSome => by simp [Operator.branchCount] at hSome

end Plan

end SolutionFlow
