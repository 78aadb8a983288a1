import SolutionFlow.Algebra.Names
import SolutionFlow.Flow.Leaf
import SolutionFlow.Flow.Operator.Basic

/-!
Running queries: trees of operators with jobs at their leaves.

`Plan.start` turns a plan into a process and emits what can be said at once. From then on a process
only moves when one of its jobs makes a step (`Process.deliver`), and what that step emits runs up
through all operators above it. Which job is next is for the caller to decide: every order of steps
is an execution of the query.
-/

namespace SolutionFlow

/-- A running query: nothing, a job, or an operator above the processes of its arguments. -/
inductive Process where
  | idle
  | leaf (job : Job)
  | node (op : Operator) (children : List Process)

namespace Process

/-- A job that is going to make a call, as soon as it can. -/
def calling (kind : String) (call : Environment → Timed Call) : Emission Process := do
  return .leaf ⟨kind, ← Emission.time, .waiting call⟩

/-- A job that needs a collaborator; without one it fails at once. -/
def callingOn {α : Type} (kind collaborator : String) (helper : Option α)
    (call : α → Environment → Timed Call) : Emission Process :=
  match helper with
  | some h => calling kind (call h)
  | none => do
    Emission.reportIfHeard (.missing kind collaborator)
    return .idle

/-- Emits one row and the end behind it. -/
def single (row : Solution) : Emission Process := do
  if ← Emission.push row then Emission.finished
  return .idle

/-- Emits the end only. -/
def nothing : Emission Process := do
  Emission.finished
  return .idle

/-- Puts an operator above the process of its first argument. -/
def under (env : Environment) (op : Operator) (spawn : Solution → Emission Process)
    (arg : Emission Process) : Emission Process := do
  let (child, op, opened) ← (Operator.lead env spawn).through (op, []) arg
  return .node op (child :: opened)

/-- Puts an operator above the process of its only argument. -/
def underOne (env : Environment) (op : Operator) (arg : Emission Process) : Emission Process :=
  under env op (fun _ => return .idle) arg

/-- Puts a merge of streams above two processes. -/
def underUnion (env : Environment) (left right : Emission Process) : Emission Process := do
  let (left, op) ← (Operator.pipe env 0).through (.union (.new 2)) left
  let (right, op) ← (Operator.pipe env 0).through op right
  return .node op [left, right]

/-- Starts a path of length zero. If both ends are known, it is there exactly if they are equal. -/
def zeroLength (env : Environment) (ends : PathEnds) (seed : Solution) : Emission Process :=
  match ends.subject.resolve seed, ends.object.resolve seed with
  | some subject, some object => if subject = object then single seed else nothing
  | subject, object =>
    callingOn "ZeroLengthPath" "path evaluator" env.path fun finder _ =>
      return finder.zeroLength ends subject object seed

/-- Starts a call of a service. Without an endpoint a silent one answers with the seed. -/
def service (env : Environment) (endpoint : Slot) (arg : Plan) (silent : Bool) (seed : Solution) :
    Emission Process :=
  match env.service, endpoint.resolve seed with
  | some caller, some term =>
    calling "Service" fun _ => return Leaf.service caller term arg silent seed
  | some _, none =>
    if silent then single seed
    else do
      Emission.reportIfHeard (.unboundService endpoint.name)
      return .idle
  | none, _ => do
    Emission.reportIfHeard (.missing "Service" "service evaluator")
    return .idle

end Process

namespace Plan

open Process

/-- Starts a plan from a seed, in its place in the query. -/
def start (env : Environment) : Plan → Solution → Scope → Emission Process
  | .pattern p, seed, _ => calling "StatementPattern" fun env => return Leaf.pattern p seed env
  | .external set, seed, _ => calling "ExternalSet" fun _ => return set.call seed
  | .zeroLengthPath ends, seed, _ => zeroLength env ends seed
  | .arbitraryLengthPath ends path minLength, seed, _ =>
    callingOn "ArbitraryLengthPath" "path evaluator" env.path fun finder =>
      Leaf.arbitraryLength finder ends path minLength seed
  | .inline _ rows, seed, _ =>
    calling "BindingSetAssignment" fun _ => return Leaf.inline rows seed
  | .singleton, seed, _ => single seed
  | .empty, _, _ => nothing
  | .root arg, seed, scope => do
    Emission.timed (modify Clock.restart)
    arg.start env seed scope.descend
  | .project arg list, seed, scope =>
    underOne env (.project ⟨list, seed⟩) (arg.start env seed scope.descend)
  | .multiProject arg lists, seed, scope =>
    underOne env (.multiProject (.new lists seed)) (arg.start env seed scope.descend)
  | .filter arg condition, seed, scope =>
    let visible := if scope.nested then none else some arg.bindingNames
    underOne env (.filter ⟨condition, visible⟩) (arg.start env seed scope.descend)
  | .extend arg elements, seed, scope =>
    underOne env (.extend ⟨elements⟩) (arg.start env seed scope.descend)
  | .slice arg offset limit, seed, scope =>
    if limit = some 0 then nothing
    else
      underOne env (.slice (.ofSlice offset limit))
        (arg.start env seed (scope.enter (.slice offset limit)))
  | .distinct arg, seed, scope =>
    underOne env (.distinct ⟨.new env.spill⟩) (arg.start env seed (scope.enter .distinct))
  | .reduced arg, seed, scope =>
    underOne env (.reduced ⟨none⟩) (arg.start env seed (scope.enter .reduced))
  | .group arg names elements, seed, scope =>
    callingOn "Group" "group evaluator" env.group fun evaluator =>
      Leaf.group evaluator ⟨names, elements⟩ arg seed scope.descend
  | .order arg keys, seed, scope =>
    underOne env (.order (.new keys scope env.spill)) (arg.start env seed scope.descend)
  | .service endpoint arg silent, seed, _ => Process.service env endpoint arg silent seed
  | .describe arg, seed, scope =>
    callingOn "Describe" "describe evaluator" env.describe fun evaluator =>
      Leaf.describe evaluator arg seed scope.descend
  | .join left right, seed, scope =>
    under env (.join ⟨right, scope.descend, .new 1⟩)
      (fun row => right.start env row scope.descend) (left.start env seed scope.descend)
  | .leftJoin left right condition, seed, scope =>
    let mentioned := right.varNames ++ ((condition.map Expr.varNames).getD [])
    let names := LeftJoining.problemNames left.bindingNames mentioned seed
    let visible := left.bindingNames ++ right.bindingNames
    let inner :=
      under env (.leftJoin ⟨right, condition, visible, scope.descend, .new 1, []⟩)
        (fun row => right.start env row scope.descend)
        (left.start env (seed.without names) scope.descend)
    if names.isEmpty then inner else underOne env (.correct ⟨seed, names⟩) inner
  | .union left right, seed, scope =>
    underUnion env (left.start env seed scope.descend) (right.start env seed scope.descend)
  | .intersection left right, seed, scope =>
    under env (.setFilter ⟨.intersection, left, seed, scope.descend, .new env.spill⟩)
      (fun row => left.start env row scope.descend) (right.start env seed scope.descend)
  | .difference left right, seed, scope =>
    under env (.setFilter ⟨.difference, left, seed, scope.descend, .new env.spill⟩)
      (fun row => left.start env row scope.descend) (right.start env seed scope.descend)

end Plan

namespace Operator

/-- Starts the argument of a branch from a seed. -/
def spawn (env : Environment) : Operator → Solution → Emission Process
  | .join s, row => s.right.start env row s.scope
  | .leftJoin s, row => s.right.start env row s.scope
  | .setFilter s, seed => s.left.start env seed s.scope
  | _, _ => return .idle

end Operator

namespace Process

mutual

/-- Lets the job at the end of a path make a step. A path names a child at each operator. -/
def deliver (env : Environment) : Process → List Nat → Emission Process
  | .idle, _ => return .idle
  | .leaf job, _ => do
    return .leaf (← job.step env)
  | .node op children, [] => return .node op children
  | .node op children, k :: path =>
    match deliverAt env children k path with
    | none => return .node op children
    | some emission =>
      match k with
      | 0 => do
        let (child, op, opened) ← (Operator.lead env (op.spawn env)).through (op, []) emission
        return .node op (children.set 0 child ++ opened)
      | k + 1 => do
        let (child, op) ← (Operator.pipe env k).through op emission
        return .node op (children.set (k + 1) child)

/-- Lets a job below the child with number `k` make a step, if there is such a child. -/
def deliverAt (env : Environment) : List Process → Nat → List Nat → Option (Emission Process)
  | [], _, _ => none
  | child :: _, 0, path => some (child.deliver env path)
  | _ :: rest, k + 1, path => deliverAt env rest k path

end

/-- When a job can make its next step, and where it is. -/
structure Appointment where
  time : Nat
  path : List Nat

/-- The earlier of two appointments, the first if they are at the same time. -/
def Appointment.earlier (a b : Option Appointment) : Option Appointment :=
  match a, b with
  | some x, some y => if x.time ≤ y.time then some x else some y
  | some x, none => some x
  | none, y => y

mutual

/-- The first job that can make a step, if any job is left. -/
def earliest : Process → Option Appointment
  | .idle => none
  | .leaf job => if job.isEnded then none else some ⟨job.readyAt, []⟩
  | .node _ children => earliestOf 0 children

/-- The first job below some children, of which the first has number `k`. -/
def earliestOf : Nat → List Process → Option Appointment
  | _, [] => none
  | k, child :: rest =>
    Appointment.earlier (child.earliest.map fun a => { a with path := k :: a.path })
      (earliestOf (k + 1) rest)

end

end Process

end SolutionFlow
