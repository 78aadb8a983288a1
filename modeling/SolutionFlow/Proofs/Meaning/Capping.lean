import SolutionFlow.Proofs.Meaning.Chains
import SolutionFlow.Proofs.Meaning.Quota
import SolutionFlow.Proofs.Spill.Unwritable

/-! The limit of a sort. A sort below modifiers keeps no more rows than these take of it, and what leaves the
outermost modifier is the same as if it kept all rows: for every consumer, and in whatever order the
jobs below the sort make their steps. Only that a sort that keeps more rows may need files earlier. -/
namespace SolutionFlow

theorem Scope.limitOf_le (modifiers : List Modifier) : limitOf modifiers ≤ maxCount := by
  induction modifiers with
  | nil => exact le_rfl
  | cons m outer ih =>
      have hCapped (a b : Nat) : addCapped a b ≤ maxCount := Nat.min_le_right _ _
      have hCount (n : UInt64) : n.toNat ≤ maxCount := Nat.le_of_lt_succ n.toNat_lt
      cases m with
      | distinct => exact ih
      | reduced => exact ih
      | slice offset limit =>
          cases offset <;> cases limit <;> simp only [limitOf]
          · exact ih
          · exact hCount _
          · split
            · exact hCapped _ _
            · exact ih
          · exact hCapped _ _

namespace Sorting

open Operator (chain)

variable {env : Environment} {modifiers : List Modifier} {s : Sorting} {other : Sorter SortKey}
  {entries : List Valued} {order : List SortKey} {row : Solution} {outer : List Operator}

/-- What a sort that drops repeated rows knows of those that it has collected: no two are equal, and all of
them are in its set. -/
def Knows (distinct : Bool) (seen : Option (MemberSet Solution)) (entries : List Valued) : Prop :=
  distinct = true → (entries.map Prod.snd).Nodup ∧
    ∃ set, seen = some set ∧ ∀ entry ∈ entries, entry.2 ∈ set.members

/-- The sorter has no part in noting a row. -/
theorem exists_note (s : Sorting) (row : Solution) : ∃ result seen, ∀ other,
    note { s with sorter := other } row = (result, { s with sorter := other, seen := seen }) := by
  cases hSeen : s.seen with
  | none => exact ⟨.ok true, none, fun other => by simp [note]⟩
  | some set => exact ⟨(set.add row).1, some (set.add row).2, fun other => by simp [note]⟩

/-- Noting a row does not make the set forget, and a row that counts has not been collected before. -/
theorem Knows.note {distinct : Bool} (h : Knows distinct s.seen entries) {seen : Option (MemberSet Solution)}
    {result : Except SpillError Bool} (hNote : s.note row = (result, { s with seen := seen })) :
    Knows distinct seen entries ∧
      (result = .ok true → ∀ values, Knows distinct seen (entries ++ [(values, row)])) := by
  have hSeen : (s.note row).2.seen = seen := by rw [hNote]
  have hResult : (s.note row).1 = result := by rw [hNote]
  by_cases hDistinct : distinct = true
  · obtain ⟨hNodup, set, hSet, hMembers⟩ := h hDistinct
    simp only [Sorting.note, hSet] at hSeen hResult
    obtain ⟨added, set', hAdd⟩ : ∃ added set', set.add row = (added, set') := ⟨_, _, rfl⟩
    simp only [hAdd] at hSeen hResult
    subst hSeen hResult
    cases added with
    | error e =>
        rw [MemberSet.add_error hAdd]
        exact ⟨fun _ => ⟨hNodup, set, rfl, hMembers⟩, by simp⟩
    | ok isNew =>
        obtain ⟨hNew, -, -, hMore⟩ := MemberSet.add_ok hAdd
        have hOld : ∀ entry ∈ entries, entry.2 ∈ set'.members :=
          fun entry hMem => (hMore _).mpr (.inl (hMembers entry hMem))
        refine ⟨fun _ => ⟨hNodup, set', rfl, hOld⟩, fun hTrue values _ => ?_⟩
        obtain rfl := Except.ok.inj hTrue
        have hFresh : row ∉ entries.map Prod.snd := by
          intro hMem
          obtain ⟨entry, hEntry, rfl⟩ := List.mem_map.mp hMem
          simp [hMembers entry hEntry] at hNew
        refine ⟨?_, set', rfl, ?_⟩
        · rw [List.map_append, List.map_singleton, ← List.concat_eq_append, List.nodup_concat]
          exact ⟨hFresh, hNodup⟩
        · exact List.forall_mem_append.mpr
            ⟨hOld, List.forall_mem_singleton.mpr ((hMore row).mpr (.inr rfl))⟩
  · exact ⟨fun hTrue => absurd hTrue hDistinct, fun _ _ hTrue => absurd hTrue hDistinct⟩

/-- A sort that has collected rows, and another sorter in its place that has no limit: both sorters have
been given the same keys. -/
structure Collecting (env : Environment) (modifiers : List Modifier) (s : Sorting)
    (other : Sorter SortKey) (entries : List Valued) (order : List SortKey) : Prop where
  arrivals_eq : s.arrivals = entries.length
  directed : Directed (s.keys.map Prod.fst) entries
  ascending : Ascending order
  perm : order.Perm (numbered entries)
  knows : Knows (modifiers.any Modifier.dropsRepeats) s.seen entries
  gathers : s.sorter.Gathers order
  limit_eq : s.sorter.limit = Scope.limitOf modifiers
  gathers_other : other.Gathers order
  limit_other : other.limit = maxCount
  options_eq : s.sorter.options = env.spill ∧ other.options = env.spill

/-- A sort and one with another sorter in its place, both below the same operators: both sorters have been
closed, or both have been given the same keys while nothing has been heard by the operators above. -/
structure Twin (env : Environment) (modifiers : List Modifier) (s : Sorting) (other : Sorter SortKey)
    (outer : List Operator) : Prop where
  not_opens : ∀ op ∈ outer, op.opens = false
  state : (s.sorter.closed = true ∧ other.closed = true) ∨
    (outer = modifiers.map (·.operator env.spill) ∧
      ∃ entries order, s.Collecting env modifiers other entries order)

/-- Two sorts below the same operators differ in their sorters only, and are alike. -/
def TwinStates (env : Environment) (modifiers : List Modifier) (a b : Sorting × List Operator) : Prop :=
  ∃ other, b = ({ a.1 with sorter := other }, a.2) ∧ Twin env modifiers a.1 other a.2

/-- What a sort may fail with that would not if it kept less rows. -/
def NoFile (env : Environment) (error : QueryError) : Prop :=
  env.spill.canWrite = false ∧ error = .spill SpillOptions.unwritable

/-- A failure closes both. -/
theorem twins_failWith (hOuter : ∀ op ∈ outer, op.opens = false) (s : Sorting) (other : Sorter SortKey)
    (error : QueryError) :
    (chain env outer (s.failWith error)).Alike (NoFile env) (TwinStates env modifiers)
      (chain env outer (failWith { s with sorter := other } error)) := by
  simp only [failWith, Operator.chain_bind]
  refine .bind_ensured (Operator.ensures_chain _ hOuter) fun r hNext => ?_
  simp only [Operator.chain_pure]
  exact .pure ⟨other.close, rfl, hNext, .inl ⟨rfl, rfl⟩⟩

/-- What two sorts leave behind when they have answered a row is alike. -/
abbrev TwinReplies (env : Environment) (modifiers : List Modifier)
    (a b : (Bool × Sorting) × List Operator) : Prop :=
  a.1.1 = b.1.1 ∧ TwinStates env modifiers (a.1.2, a.2) (b.1.2, b.2)

theorem Twin.reply (h : Twin env modifiers s other outer) (more : Bool) :
    (chain env outer (pure (more, s))).Alike (NoFile env) (TwinReplies env modifiers)
      (chain env outer (pure (more, { s with sorter := other }))) := by
  simp only [Operator.chain_pure]
  exact .pure ⟨rfl, other, rfl, h⟩

theorem Twin.refuse (h : Twin env modifiers s other outer) (e : SpillError) :
    (chain env outer (s.refuse e)).Alike (NoFile env) (TwinReplies env modifiers)
      (chain env outer (Sorting.refuse { s with sorter := other } e)) := by
  unfold Sorting.refuse
  split
  · exact h.reply false
  · simp only [Operator.chain_bind, Operator.chain_pure]
    exact (twins_failWith h.not_opens s other _).bind fun _ _ hNext => .pure ⟨rfl, hNext⟩

/-- Both sorters take a key more, or the one that keeps more keys cannot make a file. -/
theorem Collecting.add (h : s.Collecting env modifiers other entries order)
    {values : List (Direction × Option Term)} (hValues : values.map Prod.fst = s.keys.map Prod.fst)
    (hKnows : Knows (modifiers.any Modifier.dropsRepeats) s.seen (entries ++ [(values, row)])) :
    (∃ sorter sorter' order', s.sorter.add ⟨values, s.arrivals, row⟩ = (.ok (), sorter) ∧
      other.add ⟨values, s.arrivals, row⟩ = (.ok (), sorter') ∧
      Collecting env modifiers { s with sorter := sorter, arrivals := s.arrivals + 1 } sorter'
        (entries ++ [(values, row)]) order') ∨
    (env.spill.canWrite = false ∧
      ∃ sorter', other.add ⟨values, s.arrivals, row⟩ = (.error SpillOptions.unwritable, sorter')) := by
  have hDirected : Directed (s.keys.map Prod.fst) (entries ++ [(values, row)]) :=
    List.forall_mem_append.mpr ⟨h.directed, List.forall_mem_singleton.mpr hValues⟩
  obtain ⟨order', hOrder', hPerm', -, hMore⟩ := hDirected.exists_order_concat h.perm
  rw [← h.arrivals_eq] at hMore
  obtain ⟨sorter, hLimit, hOptions, hAdd⟩ := h.gathers.add h.ascending hOrder' hMore
  obtain ⟨sorter', hLimit', hOptions', hAdd'⟩ := h.gathers_other.add h.ascending hOrder' hMore
  obtain ⟨hAdd', hGathers', hRoom'⟩ | ⟨hAdd', hFull'⟩ := hAdd'
  · obtain ⟨hAdd, hGathers, -⟩ | ⟨-, hFull⟩ := hAdd
    · refine .inl ⟨sorter, sorter', order', hAdd, hAdd', ⟨?_, hDirected, hOrder', hPerm', hKnows, hGathers,
        hLimit.trans h.limit_eq, hGathers', hLimit'.trans h.limit_other,
        hOptions.trans h.options_eq.1, hOptions'.trans h.options_eq.2⟩⟩
      simp [h.arrivals_eq]
    · refine absurd ⟨?_, ?_⟩ hRoom'
      · rw [h.options_eq.2, ← h.options_eq.1]
        exact hFull.1
      · refine le_trans (le_of_eq ?_) (hFull.2.trans ?_)
        · simp only [Sorter.runLength, h.options_eq.1, h.options_eq.2]
        · rw [h.limit_eq, h.limit_other, List.length_take, List.length_take]
          exact min_le_min_right _ (Scope.limitOf_le modifiers)
  · exact .inr ⟨h.options_eq.2 ▸ hFull'.1, sorter', hAdd'⟩

theorem exists_chain_refuse (env : Environment) (s : Sorting) (outer : List Operator) :
    ∃ next, chain env outer (s.refuse SpillOptions.unwritable) =
      .fail (.spill SpillOptions.unwritable) next :=
  Operator.exists_chain_fail env outer _ (.done (false, s.close))

/-- Two sorts collect a row alike. -/
theorem Twin.collect (h : Twin env modifiers s other outer)
    (hCounts : (s.sorter.closed = true ∧ other.closed = true) ∨
      (outer = modifiers.map (·.operator env.spill) ∧
        ∃ entries order, s.Collecting env modifiers other entries order ∧ ∀ values,
          Knows (modifiers.any Modifier.dropsRepeats) s.seen (entries ++ [(values, row)]))) :
    (chain env outer (s.collect env row)).Alike (NoFile env) (TwinReplies env modifiers)
      (chain env outer (Sorting.collect env { s with sorter := other } row)) := by
  simp only [Sorting.collect, Operator.chain_bind, Operator.chain_asking, bind_map_left]
  have hAsked : (Emission.asking env fun around => (values around row s.keys).run).Ensures
      (fun _ => True) fun outcome => ∀ found, outcome = .ok found →
        found.map Prod.fst = s.keys.map Prod.fst := by
    rw [Emission.ensures_asking]
    exact fun gone clock found hFound => directions_of_values hFound
  refine .bind_ensured hAsked fun outcome hOutcome => ?_
  cases outcome with
  | error error =>
      simp only [Operator.chain_bind, Operator.chain_pure]
      exact (twins_failWith h.not_opens s other error).bind fun _ _ hNext => .pure ⟨rfl, hNext⟩
  | ok found =>
      dsimp only
      obtain ⟨hClosed, hOther⟩ | ⟨hFresh, entries, order, hCollecting, hKnows⟩ := hCounts
      · have hAdd : s.sorter.add ⟨found, s.arrivals, row⟩ = (.error .closed, s.sorter) := by
          simp [Sorter.add, hClosed]
        have hAdd' : other.add ⟨found, s.arrivals, row⟩ = (.error .closed, other) := by
          simp [Sorter.add, hOther]
        rw [hAdd, hAdd']
        exact Twin.reply (s := { s with arrivals := s.arrivals + 1 })
          ⟨h.not_opens, .inl ⟨hClosed, hOther⟩⟩ false
      obtain ⟨sorter, sorter', order', hAdd, hAdd', hNext⟩ | ⟨hWrite, sorter', hAdd'⟩ :=
        hCollecting.add (hOutcome found rfl) (hKnows found)
      · rw [hAdd, hAdd']
        exact Twin.reply ⟨h.not_opens, .inr ⟨hFresh, _, order', hNext⟩⟩ true
      · rw [hAdd']
        obtain ⟨next, hFail⟩ := exists_chain_refuse env
          { s with sorter := sorter', arrivals := s.arrivals + 1 } outer
        exact hFail ▸ .pardon ⟨hWrite, rfl⟩

/-- Two sorts answer a row alike. -/
theorem Twin.onRow (h : Twin env modifiers s other outer) (row : Solution) :
    (chain env outer (s.onRow env row)).Alike (NoFile env) (TwinReplies env modifiers)
      (chain env outer (Sorting.onRow env { s with sorter := other } row)) := by
  obtain ⟨result, seen, hNote⟩ := exists_note s row
  have hFirst : s.note row = (result, { s with seen := seen }) := hNote s.sorter
  have hNext : Twin env modifiers { s with seen := seen } other outer :=
    ⟨h.not_opens, h.state.imp_right fun ⟨hFresh, entries, order, hCollecting⟩ =>
      ⟨hFresh, entries, order, { hCollecting with knows := (hCollecting.knows.note hFirst).1 }⟩⟩
  simp only [Sorting.onRow, hNote other, hFirst]
  rcases result with e | isNew
  · exact hNext.refuse e
  · cases isNew with
    | false => exact hNext.reply true
    | true =>
        refine hNext.collect (h.state.imp_right fun ⟨hFresh, entries, order, hCollecting⟩ => ?_)
        obtain ⟨hOld, hCounts⟩ := hCollecting.knows.note hFirst
        exact ⟨hFresh, entries, order, { hCollecting with knows := hOld }, hCounts rfl⟩

/-- The keys that come out, of which the sort with a limit hands over the first ones. -/
theorem Collecting.drain (h : s.Collecting env modifiers other entries order) :
    ∃ sorted sorter sorter',
      s.sorter.drain = (.ok (Counted.ofKeys (sorted.take (Scope.limitOf modifiers))), sorter) ∧
      other.drain = (.ok (Counted.ofKeys sorted), sorter') ∧ sorted.length ≤ maxCount ∧
      (modifiers.any Modifier.dropsRepeats = true → (sorted.map SortKey.row).Nodup) := by
  have hDrain := h.gathers.drain h.ascending
  have hDrain' := h.gathers_other.drain h.ascending
  have hTake : order.take (Scope.limitOf modifiers) =
      (order.take maxCount).take (Scope.limitOf modifiers) := by
    rw [List.take_take, Nat.min_eq_left (Scope.limitOf_le modifiers)]
  rw [h.limit_eq, hTake] at hDrain
  rw [h.limit_other] at hDrain'
  refine ⟨order.take maxCount, _, _, hDrain, hDrain', List.length_take_le _ _, fun hDrops => ?_⟩
  have hRows : (numbered entries).map SortKey.row = entries.map Prod.snd := by
    have hFirst : (entries.zipIdx.map Prod.fst).map Prod.snd = entries.map Prod.snd := by
      rw [List.zipIdx_map_fst]
    rwa [numbered, List.map_map] at *
  have hNodup := (h.knows hDrops).1
  rw [← hRows, ← (h.perm.map SortKey.row).nodup_iff] at hNodup
  exact hNodup.sublist ((List.take_sublist _ _).map _)

/-- At the end, the operators above take from the one sort what they take from the other. -/
theorem Twin.onFinish (h : Twin env modifiers s other outer)
    (hSome : ∀ m ∈ modifiers, m.takesNone = false) :
    (chain env outer (s.onFinish)).Alike (NoFile env) (TwinStates env modifiers)
      (chain env outer (Sorting.onFinish { s with sorter := other })) := by
  obtain ⟨hClosed, hOther⟩ | ⟨rfl, entries, order, hCollecting⟩ := h.state
  · have hDrain : s.sorter.drain = (.error .closed, s.sorter) := by simp [Sorter.drain, hClosed]
    have hDrain' : other.drain = (.error .closed, other) := by simp [Sorter.drain, hOther]
    simp only [Sorting.onFinish, hDrain, hDrain', Operator.chain_pure]
    exact .pure ⟨other, rfl, h.not_opens, .inl ⟨hClosed, hOther⟩⟩
  obtain ⟨sorted, sorter, sorter', hDrain, hDrain', hLength, hNodup⟩ := hCollecting.drain
  have hBurst : chain env (modifiers.map (·.operator env.spill))
      (Emission.pushAll ((sorted.take (Scope.limitOf modifiers)).map SortKey.row)) =
        chain env (modifiers.map (·.operator env.spill)) (Emission.pushAll (sorted.map SortKey.row)) := by
    rcases (Scope.limitOf_le modifiers).lt_or_eq with hLimit | hLimit
    · rw [List.map_take]
      exact (Operator.stopsWithin_limitOf env.spill hSome (fun m hMem hDrops =>
        List.any_eq_true.mpr ⟨m, hMem, hDrops⟩) hLimit).pushAll_take fun hDrops =>
          ⟨hNodup hDrops, fun _ _ => List.not_mem_nil⟩
    · rw [hLimit, List.take_of_length_le hLength]
  simp only [Sorting.onFinish, hDrain, hDrain', rows_ofKeys, Operator.chain_bind, hBurst]
  have hLast {outer : List Operator} (hOuter : ∀ op ∈ outer, op.opens = false) :
      (chain env outer (pure { s with sorter := sorter.close, seen := s.seen.map (·.close) })).Alike
        (NoFile env) (TwinStates env modifiers)
        (chain env outer (pure { s with sorter := sorter'.close, seen := s.seen.map (·.close) })) := by
    simp only [Operator.chain_pure]
    exact .pure ⟨sorter'.close, rfl, hOuter, .inl ⟨rfl, rfl⟩⟩
  refine .bind_ensured (Operator.ensures_chain _ h.not_opens) fun r hNext => ?_
  split
  · simp only [Operator.chain_bind]
    exact .bind_ensured (Operator.ensures_chain _ hNext) fun _ => hLast
  · exact hLast hNext

/-- Two towers of the same operators above two sorts that are alike. -/
def TwinTowers (env : Environment) (modifiers : List Modifier) (ops ops' : List Operator) : Prop :=
  ∃ a b, ops = .order a.1 :: a.2 ∧ ops' = .order b.1 :: b.2 ∧ TwinStates env modifiers a b

theorem TwinTowers.not_opens {ops ops' : List Operator} (h : TwinTowers env modifiers ops ops') :
    ops.length = ops'.length ∧ (∀ op ∈ ops, op.opens = false) ∧ ∀ op ∈ ops', op.opens = false := by
  obtain ⟨⟨s, outer⟩, _, rfl, rfl, other, rfl, hTwin⟩ := h
  exact ⟨rfl, List.forall_mem_cons.mpr ⟨rfl, hTwin.not_opens⟩,
    List.forall_mem_cons.mpr ⟨rfl, hTwin.not_opens⟩⟩

/-- Such towers answer alike whatever comes from below. -/
theorem chainPipe_alike (hSome : ∀ m ∈ modifiers, m.takesNone = false) :
    (Operator.chainPipe env).Alike (NoFile env) (TwinTowers env modifiers) (Operator.chainPipe env) where
  onRow := by
    rintro _ _ row ⟨⟨s, outer⟩, _, rfl, rfl, other, rfl, hTwin⟩
    simp only [Operator.chainPipe, Operator.chain_push (pipe env) .order rfl]
    exact (hTwin.onRow row).map fun a b hNext => ⟨hNext.1, _, _, rfl, rfl, hNext.2⟩
  onFinish := by
    rintro _ _ ⟨⟨s, outer⟩, _, rfl, rfl, other, rfl, hTwin⟩
    simp only [Operator.chainPipe, Operator.chain_finished (pipe env) .order rfl,
      Functor.map_map]
    exact (hTwin.onFinish hSome).map fun a b hNext => ⟨_, _, rfl, rfl, hNext⟩
  onFail := by
    rintro _ _ error ⟨⟨s, outer⟩, _, rfl, rfl, other, rfl, hTwin⟩
    simp only [Operator.chainPipe, Operator.chain_report (pipe env) .order rfl,
      Functor.map_map]
    exact (twins_failWith hTwin.not_opens s other error).map fun a b hNext => ⟨_, _, rfl, rfl, hNext⟩
  pardon ops error _ := by
    obtain ⟨next, hFail⟩ := Operator.exists_chain_fail env ops error (.done ())
    exact ⟨Prod.snd <$> next, by simp only [Operator.chainPipe, Emission.report, hFail]; rfl⟩

end Sorting

namespace Process

variable {env : Environment} {modifiers : List Modifier} {ops ops' : List Operator}

/-- Two processes are the same below towers that answer alike. -/
def TwinProcesses (env : Environment) (modifiers : List Modifier) (p q : Process) : Prop :=
  ∃ ops ops' child, p = tower ops child ∧ q = tower ops' child ∧
    Sorting.TwinTowers env modifiers ops ops'

/-- What is emitted below such towers comes out alike. -/
theorem chain_twins (hSome : ∀ m ∈ modifiers, m.takesNone = false)
    (h : Sorting.TwinTowers env modifiers ops ops') (e : Emission Process) :
    ((fun r => tower r.2 r.1) <$> Operator.chain env ops e).Alike (Sorting.NoFile env)
      (TwinProcesses env modifiers) ((fun r => tower r.2 r.1) <$> Operator.chain env ops' e) := by
  simp only [Operator.chain_eq_through]
  refine ((Sorting.chainPipe_alike hSome).through (.refl (R := Eq) (fun _ => rfl) e) h).map ?_
  rintro ⟨child, ops⟩ ⟨_, ops'⟩ ⟨rfl, hNext⟩
  exact ⟨ops, ops', child, rfl, rfl, hNext⟩

/-- So does what a step below them emits. -/
theorem deliver_twins (hSome : ∀ m ∈ modifiers, m.takesNone = false) {p q : Process}
    (h : TwinProcesses env modifiers p q) (path : List Nat) :
    (p.deliver env path).Alike (Sorting.NoFile env) (TwinProcesses env modifiers)
      (q.deliver env path) := by
  obtain ⟨ops, ops', child, rfl, rfl, hTwins⟩ := id h
  obtain ⟨hLength, hOpens, hOpens'⟩ := hTwins.not_opens
  obtain hNone | ⟨below, hBelow⟩ := deliver_tower env ops.length path
  · rw [hNone ops child rfl hOpens, hNone ops' child hLength.symm hOpens']
    exact .pure h
  · rw [hBelow ops child rfl hOpens, hBelow ops' child hLength.symm hOpens']
    exact chain_twins hSome hTwins _

/-- Starts a modifier above its argument. A slice of no rows does not start the argument. -/
def startModifier (env : Environment) (arg : Emission Process) (m : Modifier) : Emission Process :=
  if m.takesNone then nothing else underOne env (m.operator env.spill) arg

/-- Starts a sort that keeps at most so many rows, with modifiers above it, the nearest first. -/
def startSorted (env : Environment) (limit : Nat) (keys : List (Direction × Expr))
    (modifiers : List Modifier) (arg : Emission Process) : Emission Process :=
  let seen := if modifiers.any Modifier.dropsRepeats then some (.new env.spill) else none
  modifiers.foldl (startModifier env) (underOne env (.order ⟨keys, .new limit env.spill, seen, 0⟩) arg)

theorem foldl_startModifier (hSome : ∀ m ∈ modifiers, m.takesNone = false) (arg : Emission Process) :
    modifiers.foldl (startModifier env) arg = underAll env (modifiers.map (·.operator env.spill)) arg := by
  induction modifiers generalizing arg with
  | nil => rfl
  | cons m outer ih =>
      obtain ⟨hFirst, hOuter⟩ := List.forall_mem_cons.mp hSome
      simp only [List.foldl_cons, ih hOuter, startModifier, hFirst, List.map_cons, underAll]
      rfl

/-- Above a slice of no rows it does not matter what would have been started below. -/
theorem foldl_startModifier_eq (hNone : ¬∀ m ∈ modifiers, m.takesNone = false) (arg arg' : Emission Process) :
    modifiers.foldl (startModifier env) arg = modifiers.foldl (startModifier env) arg' := by
  induction modifiers generalizing arg arg' with
  | nil => simp at hNone
  | cons m outer ih =>
      rw [List.foldl_cons, List.foldl_cons]
      by_cases hFirst : m.takesNone = true
      · rw [startModifier, startModifier, if_pos hFirst, if_pos hFirst]
      · refine ih (fun hOuter => hNone (List.forall_mem_cons.mpr ⟨?_, hOuter⟩)) _ _
        simpa using hFirst

/-- A sort with its limit and one without start alike below modifiers. -/
theorem startSorted_twins (hSome : ∀ m ∈ modifiers, m.takesNone = false)
    (keys : List (Direction × Expr)) (arg : Emission Process) :
    (startSorted env (Scope.limitOf modifiers) keys modifiers arg).Alike (Sorting.NoFile env)
      (TwinProcesses env modifiers) (startSorted env maxCount keys modifiers arg) := by
  let seen : Option (MemberSet Solution) :=
    if modifiers.any Modifier.dropsRepeats then some (.new env.spill) else none
  let tower (limit : Nat) : List Operator :=
    .order ⟨keys, .new limit env.spill, seen, 0⟩ :: modifiers.map (·.operator env.spill)
  have hOuter : ∀ op ∈ modifiers.map (·.operator env.spill), op.opens = false := by
    simp [Modifier.operator_not_opens]
  have hStart (limit : Nat) : startSorted env limit keys modifiers arg =
      (fun r => Process.tower r.2 r.1) <$> Operator.chain env (tower limit) arg := by
    rw [startSorted, foldl_startModifier hSome]
    exact underAll_eq (List.forall_mem_cons.mpr ⟨rfl, hOuter⟩) arg
  rw [hStart, hStart]
  refine chain_twins hSome ⟨(_, _), (_, _), rfl, rfl, .new maxCount env.spill, rfl, hOuter, .inr ?_⟩ arg
  refine ⟨rfl, [], [], rfl, by simp [Sorting.Directed], .nil, .refl _, fun hDrops => ?_,
    Sorter.gathers_new _ _, rfl, Sorter.gathers_new _ _, rfl, rfl, rfl⟩
  exact ⟨List.nodup_nil, .new env.spill, by simp [seen, hDrops], by simp⟩

end Process

namespace Plan

open Process

variable {env : Environment} {seed : Solution} {nested : Bool}

theorem start_around (m : Modifier) (arg : Plan) (scope : Scope) :
    (m.around arg).start env seed scope = startModifier env (arg.start env seed (scope.enter m)) m := by
  cases m with
  | distinct => rfl
  | reduced => rfl
  | slice offset limit =>
      simp only [Modifier.around, start, startModifier, Modifier.takesNone, decide_eq_true_eq]
      rfl

theorem start_modified (plan : Plan) (modifiers outer : List Modifier) :
    (plan.modified modifiers).start env seed ⟨outer, nested⟩ =
      modifiers.foldl (startModifier env) (plan.start env seed ⟨modifiers ++ outer, nested⟩) := by
  induction modifiers using List.reverseRecOn generalizing outer with
  | nil => rfl
  | append_singleton inner m ih =>
      rw [modified, List.foldl_append, List.foldl_append, List.append_assoc]
      exact (start_around m _ _).trans (congrArg (startModifier env · m) (ih (m :: outer)))

/-- A sort with any modifiers directly around it keeps no more rows than it has been found that they can
use. What leaves the outermost of them is the same as if the sort kept all rows, as far as rows can be
counted: whatever the argument, its rows and the sort keys are, in whatever order the jobs make their
steps and whatever the consumer replies, it is told the same at the same times. Only where no files can
be made, the sort that keeps all rows may fail for it. -/
theorem sort_limit_keeps_rows (arg : Plan) (keys : List (Direction × Expr)) (modifiers : List Modifier) :
    let below := arg.start env seed ⟨[], nested⟩
    ((order arg keys).modified modifiers).start env seed ⟨[], nested⟩ =
      startSorted env (Scope.limitOf modifiers) keys modifiers below ∧
    ∀ {σ : Type} (c : Consumer σ) (steps : List Appointment) (s : Clock × σ × List QueryError),
      let limited := outcome env c.logging
        (startSorted env (Scope.limitOf modifiers) keys modifiers below) steps s
      let unlimited := outcome env c.logging (startSorted env maxCount keys modifiers below) steps s
      limited = unlimited ∨
        (env.spill.canWrite = false ∧ .spill SpillOptions.unwritable ∈ unlimited.2.2) := by
  intro below
  refine ⟨?_, fun c steps s => ?_⟩
  · rw [start_modified, List.append_nil]
    simp only [startSorted, start, Sorting.new, Scope.sortLimit, Scope.sortDistinct_eq]
    rfl
  intro limited unlimited
  by_cases hSome : ∀ m ∈ modifiers, m.takesNone = false
  · obtain hSame | ⟨error, hMem, hWrite, rfl⟩ :=
      outcome_eq_or_marked (fun p q path h => deliver_twins hSome h path)
        (startSorted_twins hSome keys below) (c.marks_logging (Sorting.NoFile env)) steps s
    · exact .inl hSame
    · exact .inr ⟨hWrite, hMem⟩
  · left
    simp only [limited, unlimited, startSorted]
    rw [foldl_startModifier_eq hSome]

end Plan

end SolutionFlow
