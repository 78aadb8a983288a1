import SolutionFlow.Proofs.Flow.Alike

/-! Towers: operators of one argument above each other. What the process below them emits goes through all
of them, from the nearest to the outermost, before anything else happens; so they answer it together
like one operator, whose state is the list of theirs. -/
namespace SolutionFlow

namespace Operator

variable {env : Environment} {α β : Type}

/-- Sends an emission through operators, the nearest first. -/
def chain (env : Environment) : {α : Type} → List Operator → Emission α → Emission (α × List Operator)
  | _, [], e => (fun value => (value, [])) <$> e
  | _, op :: outer, e => do
    let ((value, op), outer) ← chain env outer ((pipe env 0).through op e)
    return (value, op :: outer)

/-- The second part of an emission meets the operators as the first part has left them. -/
theorem chain_bind (ops : List Operator) (e : Emission α) (f : α → Emission β) :
    chain env ops (e >>= f) = chain env ops e >>= fun r => chain env r.2 (f r.1) := by
  induction ops generalizing α β with
  | nil => simp only [chain, map_bind, bind_map_left]
  | cons op outer ih =>
      have hThrough : (pipe env 0).through op (e >>= f) =
          (pipe env 0).through op e >>= fun r => (pipe env 0).through r.2 (f r.1) :=
        Pipe.through_bind _ _ _ _
      simp only [chain, hThrough, ih, bind_assoc, pure_bind]

theorem chain_pure (ops : List Operator) (value : α) :
    chain env ops (pure value) = pure (value, ops) := by
  induction ops generalizing α with
  | nil => rfl
  | cons op outer ih =>
      have hThrough : (pipe env 0).through op (pure value) = pure (value, op) := rfl
      simp only [chain, hThrough, ih, pure_bind]

theorem chain_probe (ops : List Operator) (next : Bool → Emission α) :
    chain env ops (.probe next) = .probe fun gone => chain env ops (next gone) := by
  induction ops generalizing α with
  | nil => rfl
  | cons op outer ih => simp only [chain, Pipe.through, ih]; rfl

theorem chain_consult (ops : List Operator) (next : Clock → Emission α) :
    chain env ops (.consult next) = .consult fun clock => chain env ops (next clock) := by
  induction ops generalizing α with
  | nil => rfl
  | cons op outer ih => simp only [chain, Pipe.through, ih]; rfl

theorem chain_adjust (ops : List Operator) (clock : Clock) (next : Emission α) :
    chain env ops (.adjust clock next) = .adjust clock (chain env ops next) := by
  induction ops generalizing α with
  | nil => rfl
  | cons op outer ih => simp only [chain, Pipe.through, ih]; rfl

/-- Operators have nothing to do with questions to whom they are silent. -/
theorem chain_asking (ops : List Operator) (act : Surroundings → Timed α) :
    chain env ops (Emission.asking env act) =
      (fun value => (value, ops)) <$> Emission.asking env act := by
  have hSilent : chain env ops (Emission.asking env act) = .probe fun gone => .consult fun clock =>
      .adjust (act (env.surroundingsIf gone) clock).2
        (chain env ops (pure (act (env.surroundingsIf gone) clock).1)) := by
    change chain env ops (.probe fun gone => .consult fun clock =>
      .adjust (act (env.surroundingsIf gone) clock).2 (.done _)) = _
    simp only [chain_probe, chain_consult, chain_adjust]
    rfl
  rw [hSilent]
  simp only [chain_pure]
  rfl

section

variable {σ : Type} (p : Pipe σ) (wrap : σ → Operator) {s : σ}
  (hReact : (wrap s).react env 0 = p.react s wrap) (outer : List Operator)

include hReact

/-- The nearest operator answers a row, and the others what it makes of it. -/
theorem chain_push (row : Solution) :
    chain env (wrap s :: outer) (Emission.push row) =
      (fun r => (r.1.1, wrap r.1.2 :: r.2)) <$> chain env outer (p.onRow s row) := by
  have hThrough : (pipe env 0).through (wrap s) (Emission.push row) =
      (fun r => (r.1, wrap r.2)) <$> p.onRow s row := by
    change ((wrap s).react env 0).onRow row >>= pure = _
    rw [bind_pure, hReact]
    rfl
  simp only [chain, hThrough, ← bind_pure_comp, chain_bind, chain_pure, bind_assoc, pure_bind]

theorem chain_finished :
    chain env (wrap s :: outer) Emission.finished =
      (fun r => ((), wrap r.1 :: r.2)) <$> chain env outer (p.onFinish s) := by
  have hThrough : (pipe env 0).through (wrap s) Emission.finished =
      (fun s => ((), wrap s)) <$> p.onFinish s := by
    change (((wrap s).react env 0).onFinish >>= fun op => pure ((), op)) = _
    rw [hReact]
    simp only [Pipe.react, bind_pure_comp, Functor.map_map]
  simp only [chain, hThrough, ← bind_pure_comp, chain_bind, chain_pure, bind_assoc, pure_bind]

theorem chain_report (error : QueryError) :
    chain env (wrap s :: outer) (Emission.report error) =
      (fun r => ((), wrap r.1 :: r.2)) <$> chain env outer (p.onFail s error) := by
  have hThrough : (pipe env 0).through (wrap s) (Emission.report error) =
      (fun s => ((), wrap s)) <$> p.onFail s error := by
    change (((wrap s).react env 0).onFail error >>= fun op => pure ((), op)) = _
    rw [hReact]
    simp only [Pipe.react, bind_pure_comp, Functor.map_map]
  simp only [chain, hThrough, ← bind_pure_comp, chain_bind, chain_pure, bind_assoc, pure_bind]

end

/-- Operators above each other, as one. -/
def chainPipe (env : Environment) : Pipe (List Operator) where
  onRow ops row := chain env ops (Emission.push row)
  onFinish ops := Prod.snd <$> chain env ops Emission.finished
  onFail ops error := Prod.snd <$> chain env ops (Emission.report error)

theorem chain_eq_through (ops : List Operator) (e : Emission α) :
    chain env ops e = (chainPipe env).through ops e := by
  induction e generalizing ops with
  | done value => exact chain_pure ops value
  | emit row next ih =>
      have hSplit : Emission.emit row next = Emission.push row >>= next := rfl
      rw [hSplit, chain_bind]
      simp only [ih]
      rfl
  | finish next ih =>
      calc chain env ops (Emission.finished >>= fun _ => next)
        _ = chain env ops Emission.finished >>= fun r => (chainPipe env).through r.2 next := by
          simp only [chain_bind, ih]
        _ = (Prod.snd <$> chain env ops Emission.finished) >>= fun ops =>
            (chainPipe env).through ops next := (bind_map_left Prod.snd _ fun ops => (chainPipe env).through ops next).symm
  | fail error next ih =>
      calc chain env ops (Emission.report error >>= fun _ => next)
        _ = chain env ops (Emission.report error) >>= fun r => (chainPipe env).through r.2 next := by
          simp only [chain_bind, ih]
        _ = (Prod.snd <$> chain env ops (Emission.report error)) >>= fun ops =>
            (chainPipe env).through ops next := (bind_map_left Prod.snd _ fun ops => (chainPipe env).through ops next).symm
  | probe next ih => simp only [chain_probe, ih, Pipe.through]
  | consult next ih => simp only [chain_consult, ih, Pipe.through]
  | adjust clock next ih => simp only [chain_adjust, ih, Pipe.through]

/-- An operator that starts no arguments never does. -/
theorem react_not_opens {op : Operator} (hOpens : op.opens = false) :
    (op.react env 0).Carries (fun _ => True) (fun _ => True) fun op => op.opens = false := by
  cases op with
  | join s => simp [opens] at hOpens
  | leftJoin s => simp [opens] at hOpens
  | setFilter s => simp [opens] at hOpens
  | _ =>
      constructor <;> intros <;>
        simp only [react, Pipe.react, Emission.ensures_bind, Emission.ensures_pure] <;>
        exact Emission.ensures_of_forall _ (fun _ => trivial) fun _ => rfl

/-- So it is with operators above each other. -/
theorem ensures_chain (e : Emission α) {ops : List Operator} (hOpens : ∀ op ∈ ops, op.opens = false) :
    (chain env ops e).Ensures (fun _ => True) fun r => ∀ op ∈ r.2, op.opens = false := by
  have hAll {β : Type} {K : β → Prop} (e : Emission β) (h : e.Ensures (fun _ => True) K) :
      (chain env ops e).Ensures (fun _ => True) fun r => K r.1 ∧ ∀ op ∈ r.2, op.opens = false := by
    induction ops generalizing β with
    | nil => simpa [chain] using h
    | cons op outer ih =>
        obtain ⟨hOp, hOuter⟩ := List.forall_mem_cons.mp hOpens
        have hCarries : (pipe env 0).Carries (fun _ => True) (fun _ => True)
            fun op => op.opens = false := Pipe.carries_ofReaction fun _ => react_not_opens
        simp only [chain, Emission.ensures_bind, Emission.ensures_pure]
        exact (ih hOuter _ (hCarries.through hOp h)).mono (fun _ => id) fun r hNext =>
          ⟨hNext.1.1, List.forall_mem_cons.mpr ⟨hNext.1.2, hNext.2⟩⟩
  exact (hAll e (Emission.ensures_of_forall e (fun _ => trivial) fun _ => trivial)).mono (fun _ => id)
    fun _ hNext => hNext.2

/-- A failure is reported before anything else happens. -/
theorem exists_react_onFail (env : Environment) (op : Operator) (error : QueryError) :
    ∃ next, (op.react env 0).onFail error = .fail error next := by
  cases op <;> exact ⟨_, rfl⟩

theorem exists_chain_fail (env : Environment) (ops : List Operator) (error : QueryError) (e : Emission α) :
    ∃ next, chain env ops (.fail error e) = .fail error next := by
  induction ops generalizing α with
  | nil => exact ⟨_, rfl⟩
  | cons op outer ih =>
      obtain ⟨next, hFail⟩ := exists_react_onFail env op error
      have hThrough : (pipe env 0).through op (.fail error e) =
          .fail error (next >>= fun op => (pipe env 0).through op e) := by
        change (op.react env 0).onFail error >>= (fun op => (pipe env 0).through op e) = _
        rw [hFail]
        rfl
      obtain ⟨later, hOuter⟩ := ih (next >>= fun op => (pipe env 0).through op e)
      rw [chain, hThrough, hOuter]
      exact ⟨_, rfl⟩

/-- It answers its first argument like a branch. -/
theorem lead_through_of_not_opens (spawn : Solution → Emission Process) (e : Emission α) {op : Operator}
    (hOpens : op.opens = false) (opened : List Process) :
    (lead env spawn).through (op, opened) e =
      (fun r => (r.1, r.2, opened)) <$> (pipe env 0).through op e := by
  induction e generalizing op with
  | done value => rfl
  | emit row next ih =>
      calc (lead env spawn).onRow (op, opened) row >>= fun r =>
            (lead env spawn).through r.2 (next r.1)
        _ = (op.react env 0).onRow row >>= fun r =>
            (lead env spawn).through (r.2, opened) (next r.1) := by
          simp only [lead, leadRow_of_not_opens hOpens, bind_map_left]
        _ = (op.react env 0).onRow row >>= fun r =>
            (fun r => (r.1, r.2, opened)) <$> (pipe env 0).through r.2 (next r.1) :=
          Emission.bind_congr_of_ensures ((react_not_opens hOpens).onRow row trivial)
            fun r hNext => ih r.1 hNext
        _ = _ := (map_bind _ _ _).symm
  | finish next ih =>
      calc (lead env spawn).onFinish (op, opened) >>= fun s => (lead env spawn).through s next
        _ = (op.react env 0).onFinish >>= fun op => (lead env spawn).through (op, opened) next := by
          simp only [lead, leadFinish_of_not_opens hOpens, bind_map_left]
        _ = (op.react env 0).onFinish >>= fun op =>
            (fun r => (r.1, r.2, opened)) <$> (pipe env 0).through op next :=
          Emission.bind_congr_of_ensures (react_not_opens hOpens).onFinish fun _ hNext => ih hNext
        _ = _ := (map_bind _ _ _).symm
  | fail error next ih =>
      calc (lead env spawn).onFail (op, opened) error >>= fun s => (lead env spawn).through s next
        _ = (op.react env 0).onFail error >>= fun op =>
            (lead env spawn).through (op, opened) next := by
          simp only [lead, bind_assoc, pure_bind]
        _ = (op.react env 0).onFail error >>= fun op =>
            (fun r => (r.1, r.2, opened)) <$> (pipe env 0).through op next :=
          Emission.bind_congr_of_ensures ((react_not_opens hOpens).onFail error) fun _ hNext =>
            ih hNext
        _ = _ := (map_bind _ _ _).symm
  | probe next ih => exact congrArg Emission.probe (funext fun gone => ih gone hOpens)
  | consult next ih => exact congrArg Emission.consult (funext fun clock => ih clock hOpens)
  | adjust clock next ih => exact congrArg (Emission.adjust clock) (ih hOpens)

end Operator

namespace Process

variable {env : Environment}

/-- A process below operators, the nearest first. -/
def tower : List Operator → Process → Process
  | [], p => p
  | op :: outer, p => tower outer (.node op [p])

/-- Starts operators above a process. -/
def underAll (env : Environment) : List Operator → Emission Process → Emission Process
  | [], arg => arg
  | op :: outer, arg => underAll env outer (underOne env op arg)

theorem underOne_of_not_opens {op : Operator} (hOpens : op.opens = false) (arg : Emission Process) :
    underOne env op arg = do
      let (child, op) ← (Operator.pipe env 0).through op arg
      return .node op [child] := by
  simp only [underOne, under, Operator.lead_through_of_not_opens _ _ hOpens, bind_map_left]

theorem underAll_eq {ops : List Operator} (hOpens : ∀ op ∈ ops, op.opens = false)
    (arg : Emission Process) :
    underAll env ops arg = (fun r => tower r.2 r.1) <$> Operator.chain env ops arg := by
  induction ops generalizing arg with
  | nil => simp [underAll, Operator.chain, tower]
  | cons op outer ih =>
      obtain ⟨hOp, hOuter⟩ := List.forall_mem_cons.mp hOpens
      simp only [underAll, ih hOuter, underOne_of_not_opens hOp, Operator.chain, Operator.chain_bind,
        Operator.chain_pure, map_bind, map_pure, tower]

/-- Below a single operator there is only its argument. -/
theorem deliver_single {op : Operator} (hOpens : op.opens = false) (p : Process) (path : List Nat) :
    (node op [p]).deliver env (0 :: path) = do
      let (child, op) ← (Operator.pipe env 0).through op (p.deliver env path)
      return .node op [child] := by
  simp only [deliver_lead, Operator.lead_through_of_not_opens _ _ hOpens, bind_map_left]
  rfl

/-- A step below operators either is none, or what it emits goes through all of them. Which of the two
it is does not depend on the operators. -/
theorem deliver_tower (env : Environment) (count : Nat) (path : List Nat) :
    (∀ (ops : List Operator) (p : Process), ops.length = count → (∀ op ∈ ops, op.opens = false) →
      (tower ops p).deliver env path = pure (tower ops p)) ∨
    ∃ below, ∀ (ops : List Operator) (p : Process), ops.length = count →
      (∀ op ∈ ops, op.opens = false) → (tower ops p).deliver env path =
        (fun r => tower r.2 r.1) <$> Operator.chain env ops (p.deliver env below) := by
  induction count with
  | zero =>
      refine .inr ⟨path, fun ops p hCount _ => ?_⟩
      obtain rfl := List.length_eq_zero_iff.mp hCount
      simp [tower, Operator.chain]
  | succ count ih =>
      have hCons {ops : List Operator} (hCount : ops.length = count + 1)
          (hOpens : ∀ op ∈ ops, op.opens = false) :
          ∃ op outer, ops = op :: outer ∧ outer.length = count ∧ op.opens = false ∧
            ∀ op ∈ outer, op.opens = false := by
        obtain ⟨op, outer, rfl⟩ := List.exists_cons_of_length_eq_add_one hCount
        exact ⟨op, outer, rfl, Nat.succ.inj hCount, List.forall_mem_cons.mp hOpens⟩
      obtain hNone | ⟨below, hBelow⟩ := ih
      · refine .inl fun ops p hCount hOpens => ?_
        obtain ⟨op, outer, rfl, hLength, -, hOuter⟩ := hCons hCount hOpens
        exact hNone outer (.node op [p]) hLength hOuter
      by_cases hFirst : ∃ path, below = 0 :: path
      · obtain ⟨path, rfl⟩ := hFirst
        refine .inr ⟨path, fun ops p hCount hOpens => ?_⟩
        obtain ⟨op, outer, rfl, hLength, hOp, hOuter⟩ := hCons hCount hOpens
        simp only [tower, hBelow outer _ hLength hOuter, deliver_single hOp, Operator.chain,
          Operator.chain_bind, Operator.chain_pure, map_bind, map_pure]
      · have hStay (op : Operator) (p : Process) :
            (node op [p]).deliver env below = pure (node op [p]) := by
          match below with
          | [] => rfl
          | 0 :: path => exact absurd ⟨path, rfl⟩ hFirst
          | (k + 1) :: path => rfl
        refine .inl fun ops p hCount hOpens => ?_
        obtain ⟨op, outer, rfl, hLength, -, hOuter⟩ := hCons hCount hOpens
        simp only [tower, hBelow outer _ hLength hOuter, hStay, Operator.chain_pure, map_pure]

end Process

end SolutionFlow
