import SolutionFlow.Proofs.Expression.Failures
import SolutionFlow.Proofs.Meaning.Gathering
import SolutionFlow.Proofs.Meaning.StableSort
import SolutionFlow.Proofs.Spill.Unwritable

/-! What comes of a sort on its own. Rows that are pushed into it one after another come out in stable order
of their values, with one end behind them. The values are those that the sort expressions had when the
rows came, and the consumer can be any one that stays. -/
namespace SolutionFlow

namespace Consumer

variable {σ : Type}

/-- What is left of a consumer that has received some rows. -/
def receive (c : Consumer σ) (rows : List Solution) (s : σ) : σ :=
  rows.foldl (fun s row => (c.row s row).2) s

/-- Whatever rows it receives, a consumer is there and accepts the next one. -/
structure Stays (c : Consumer σ) (s : σ) : Prop where
  there : ∀ rows, c.gone (c.receive rows s) = false
  accepts : ∀ rows row, (c.row (c.receive rows s) row).1 = true

variable {c : Consumer σ} {s : σ} {clock : Clock}

theorem Stays.row (h : c.Stays s) (row : Solution) : c.Stays (c.row s row).2 :=
  ⟨fun rows => h.there (row :: rows), fun rows => h.accepts (row :: rows)⟩

theorem Stays.deliver_pushAll (h : c.Stays s) (rows : List Solution) :
    (Emission.pushAll rows).deliver c (clock, s) = (true, clock, c.receive rows s) := by
  induction rows generalizing s with
  | nil => rfl
  | cons row rest ih =>
      have hAccepts : (c.row s row).1 = true := h.accepts [] row
      simp only [Emission.pushAll, Emission.deliver, hAccepts, ↓reduceIte, ih (h.row row)]
      rfl

/-- What is asked for is told to a consumer that is there. -/
theorem Stays.deliver_asking {α : Type} (h : c.Stays s) (env : Environment)
    (act : Surroundings → Timed α) :
    (Emission.asking env act).deliver c (clock, s) =
      ((act env.surroundings clock).1, (act env.surroundings clock).2, s) := by
  have hThere : c.gone s = false := h.there []
  change ((Emission.timed (act (env.surroundingsIf (c.gone s)))).deliver c (clock, s)) = _
  rw [hThere, Environment.surroundingsIf_false]
  rfl

end Consumer

/-- A recorder without limits stays. -/
theorem Recorder.stays : consumer.Stays (.new none none) := by
  have hLimits (rows : List Solution) :
      (consumer.receive rows (.new none none)).refuseAfter = none ∧
        (consumer.receive rows (.new none none)).goneAfter = none := by
    induction rows using List.reverseRecOn with
    | nil => exact ⟨rfl, rfl⟩
    | append_singleton rows row ih =>
        rw [Consumer.receive, List.foldl_append]
        exact ih
  refine ⟨fun rows => ?_, fun rows row => ?_⟩
  · change reached _ (goneAfter _) = false
    rw [(hLimits rows).2]
    rfl
  · change (!reached _ (refuseAfter _)) = true
    rw [(hLimits rows).1]
    rfl

/-- Hands over rows one after another, as long as they are accepted, and then the end. -/
def Emission.feed : List Solution → Emission Bool
  | [] => .finish (.done true)
  | row :: rest => .emit row fun more => if more then feed rest else .done false

namespace Sorting

/-- The values of the sort expressions on some rows, one after another. -/
def valuedAll (around : Surroundings) (keys : List (Direction × Expr)) :
    List Solution → ExceptT QueryError Timed (List Valued)
  | [] => return []
  | row :: rest => do
    let found ← values around row keys
    let others ← valuedAll around keys rest
    return (found, row) :: others

/-- A sort expression has this value on a row at some time. If its evaluation ends in an error of type,
the value is unbound. -/
def Gives (around : Surroundings) (row : Solution) (key : Direction × Expr)
    (value : Direction × Option Term) : Prop :=
  value.1 = key.1 ∧ ∃ clock,
    (∃ term, ((key.2.eval around row).run clock).1 = .ok term ∧ value.2 = some term) ∨
      ∃ fault, ((key.2.eval around row).run clock).1 = .error (.type fault) ∧ value.2 = none

variable {around : Surroundings} {keys : List (Direction × Expr)} {row : Solution} {rows : List Solution}
  {clock : Clock} {found : List (Direction × Option Term)} {entries more : List Valued}

theorem gives_of_values (h : ((values around row keys).run clock).1 = .ok found) :
    List.Forall₂ (Gives around row) keys found := by
  induction keys generalizing clock found with
  | nil =>
      obtain rfl : [] = found := Except.ok.inj h
      exact .nil
  | cons key rest ih =>
      obtain ⟨value, later, hValue, hRest⟩ := Timed.ok_of_bind h
      obtain ⟨others, last, hOthers, hAll⟩ := Timed.ok_of_bind hRest
      obtain rfl : (key.1, value) :: others = found := Except.ok.inj hAll
      refine .cons ⟨rfl, clock, ?_⟩ (ih hOthers)
      change Expr.settle ((key.2.eval around row).run clock).1 = .ok value at hValue
      cases hOutcome : ((key.2.eval around row).run clock).1 with
      | ok term =>
          rw [hOutcome] at hValue
          exact .inl ⟨term, rfl, (Except.ok.inj hValue).symm⟩
      | error error =>
          rw [hOutcome] at hValue
          cases error with
          | type fault => exact .inr ⟨fault, rfl, (Except.ok.inj hValue).symm⟩
          | query error => cases hValue

theorem directions_of_gives (h : List.Forall₂ (Gives around row) keys found) :
    found.map Prod.fst = keys.map Prod.fst := by
  induction h with
  | nil => rfl
  | cons hFirst _ ih => rw [List.map_cons, List.map_cons, hFirst.1, ih]

/-- The values of the first row are found first, and then those of the others. -/
theorem ok_of_valuedAll_cons
    (h : ((valuedAll around keys (row :: rows)).run clock).1 = .ok entries) :
    ∃ found others, ((values around row keys).run clock).1 = .ok found ∧
      ((valuedAll around keys rows).run ((values around row keys).run clock).2).1 = .ok others ∧
      entries = (found, row) :: others := by
  rw [valuedAll, Timed.run_bind] at h
  split at h
  next found hFound =>
    rw [Timed.run_bind] at h
    split at h
    next others hOthers => exact ⟨found, others, hFound, hOthers, (Except.ok.inj h).symm⟩
    next => cases h
  next => cases h

/-- The entries are the rows, with the values that the sort expressions have on them. -/
theorem entries_of_valuedAll (h : ((valuedAll around keys rows).run clock).1 = .ok entries) :
    entries.map Prod.snd = rows ∧
      ∀ entry ∈ entries, List.Forall₂ (Gives around entry.2) keys entry.1 := by
  induction rows generalizing clock entries with
  | nil =>
      obtain rfl : [] = entries := Except.ok.inj h
      exact ⟨rfl, by simp⟩
  | cons row rest ih =>
      obtain ⟨found, others, hFound, hOthers, rfl⟩ := ok_of_valuedAll_cons h
      obtain ⟨hRows, hGives⟩ := ih hOthers
      exact ⟨congrArg (row :: ·) hRows, List.forall_mem_cons.mpr ⟨gives_of_values hFound, hGives⟩⟩

section

variable {σ : Type} {c : Consumer σ} {env : Environment} {s : Sorting} {x : σ}

/-- A sort on its own has collected these entries, in this order of arrival. -/
structure Collected (env : Environment) (keys : List (Direction × Expr)) (entries : List Valued)
    (s : Sorting) : Prop where
  keys_eq : s.keys = keys
  seen_eq : s.seen = none
  limit_eq : s.sorter.limit = maxCount
  options_eq : s.sorter.options = env.spill
  arrivals_eq : s.arrivals = entries.length
  directed : Directed (keys.map Prod.fst) entries
  gathers : ∃ order, Ascending order ∧ order.Perm (numbered entries) ∧
    order.map SortKey.row = stable entries ∧ s.sorter.Gathers order

/-- Runs can be written, or so many rows make none. -/
def HasRoom (env : Environment) (count : Nat) : Prop :=
  env.spill.canWrite = true ∨ count < max env.spill.threshold 1

theorem collected_new {scope : Scope} (h : scope.modifiers = []) :
    Collected env keys [] (new keys scope env.spill) where
  keys_eq := rfl
  seen_eq := by simp [new, Scope.sortDistinct, h]
  limit_eq := by
    change scope.sortLimit = maxCount
    rw [Scope.sortLimit, h, Scope.limitOf]
  options_eq := rfl
  arrivals_eq := rfl
  directed := by simp [Directed]
  gathers := ⟨[], .nil, .refl _, by simp [stable], Sorter.gathers_new _ _⟩

/-- Another row is collected with its values, and its consumer is told nothing. -/
theorem Collected.onRow (h : Collected env keys entries s) (hStays : c.Stays x)
    (hValues : ((values env.surroundings row keys).run clock).1 = .ok found)
    (hRoom : HasRoom env (entries.length + 1)) :
    ∃ s', (s.onRow env row).deliver c (clock, x) =
        ((true, s'), ((values env.surroundings row keys).run clock).2, x) ∧
      Collected env keys (entries ++ [(found, row)]) s' := by
  obtain ⟨order, hOrder, hPerm, -, hGathers⟩ := h.gathers
  have hDirected : Directed (keys.map Prod.fst) (entries ++ [(found, row)]) :=
    List.forall_mem_append.mpr
      ⟨h.directed, List.forall_mem_singleton.mpr (directions_of_values hValues)⟩
  obtain ⟨order', hOrder', hPerm', hRows', hMore⟩ := hDirected.exists_order_concat hPerm
  rw [← h.arrivals_eq] at hMore
  obtain ⟨sorter, hLimit, hOptions, ⟨hAdd, hNext, -⟩ | ⟨-, hNot, hMany⟩⟩ :=
    hGathers.add hOrder hOrder' hMore
  · refine ⟨{ s with sorter := sorter, arrivals := s.arrivals + 1 }, ?_, h.keys_eq, h.seen_eq,
      hLimit.trans h.limit_eq, hOptions.trans h.options_eq, ?_, hDirected,
      order', hOrder', hPerm', hRows', hNext⟩
    · have hNote : s.note row = (.ok true, s) := by simp [Sorting.note, h.seen_eq]
      rw [Sorting.onRow, hNote]
      change (s.collect env row).deliver c (clock, x) = _
      rw [Sorting.collect]
      change ((Emission.asking env _).bind _).deliver c (clock, x) = _
      rw [Emission.deliver_bind, hStays.deliver_asking, h.keys_eq]
      simp only [hValues, hAdd]
      rfl
    · rw [h.arrivals_eq, List.length_append, List.length_singleton]
  · have hLength : order'.length = entries.length + 1 := by
      rw [hMore.length_eq, List.length_cons, hPerm.length_eq, numbered, List.length_map,
        List.length_zipIdx]
    have hTake := List.length_take_le' s.sorter.limit order'
    rw [h.options_eq] at hNot
    rw [Sorter.runLength, h.options_eq] at hMany
    rcases hRoom with hWrite | hFew
    · simp [hWrite] at hNot
    · omega

/-- At the end, all rows are handed on in stable order, and one end behind them. -/
theorem Collected.onFinish (h : Collected env keys entries s) (hStays : c.Stays x)
    (hCount : entries.length ≤ maxCount) :
    ∃ s', s.onFinish.deliver c (clock, x) = (s', clock, c.finish (c.receive (stable entries) x)) := by
  obtain ⟨order, hOrder, hPerm, hRows, hGathers⟩ := h.gathers
  have hLength : order.length = entries.length := by
    rw [hPerm.length_eq, numbered, List.length_map, List.length_zipIdx]
  have hAll : order.take s.sorter.limit = order := by
    rw [h.limit_eq]
    exact List.take_of_length_le (hLength.trans_le hCount)
  have hDrain := hGathers.drain hOrder
  rw [hAll] at hDrain
  simp only [Sorting.onFinish, hDrain, rows_ofKeys, hRows]
  change ∃ s', ((Emission.pushAll (stable entries)).bind _).deliver c (clock, x) = _
  rw [Emission.deliver_bind, hStays.deliver_pushAll]
  exact ⟨_, rfl⟩

/-- Rows that come one after another, and then the end, are handed on in stable order together with those
that have been collected before. -/
theorem Collected.feed (h : Collected env keys entries s) (hStays : c.Stays x)
    (hValues : ((valuedAll env.surroundings keys rows).run clock).1 = .ok more)
    (hRoom : HasRoom env (entries.length + rows.length))
    (hCount : entries.length + rows.length ≤ maxCount) :
    ∃ s' later, ((pipe env).through s (Emission.feed rows)).deliver c (clock, x) =
      ((true, s'), later, c.finish (c.receive (stable (entries ++ more)) x)) := by
  induction rows generalizing entries s clock more with
  | nil =>
      obtain rfl : [] = more := Except.ok.inj hValues
      obtain ⟨s', hFinish⟩ := h.onFinish hStays hCount
      refine ⟨s', clock, ?_⟩
      change ((s.onFinish).bind _).deliver c (clock, x) = _
      rw [Emission.deliver_bind, hFinish, List.append_nil]
      rfl
  | cons row rest ih =>
      obtain ⟨found, others, hFound, hOthers, rfl⟩ := ok_of_valuedAll_cons hValues
      rw [List.length_cons] at hRoom hCount
      have hFirst : HasRoom env (entries.length + 1) := hRoom.imp_right fun hFew => by omega
      obtain ⟨s', hRow, hNext⟩ := h.onRow hStays hFound hFirst
      have hLength : (entries ++ [(found, row)]).length + rest.length =
          entries.length + (rest.length + 1) := by
        rw [List.length_append, List.length_singleton]
        omega
      obtain ⟨last, later, hRest⟩ := ih hNext hOthers (hLength ▸ hRoom) (hLength ▸ hCount)
      refine ⟨last, later, ?_⟩
      change ((s.onRow env row).bind _).deliver c (clock, x) = _
      rw [Emission.deliver_bind, hRow]
      rw [List.append_assoc] at hRest
      exact hRest

/-- A sort that is on its own sorts stably. Rows are pushed into it one after another, and then the end;
the sort expressions have values on all of them, there is room for the rows, and the consumer stays. Then
every row is accepted, and the consumer has received the rows in stable order of their values, each as
often as it came, and one end behind them. -/
theorem sorts_stably {σ : Type} {c : Consumer σ} {env : Environment} {keys : List (Direction × Expr)}
    {scope : Scope} {rows : List Solution} {entries : List Valued} {clock : Clock} {x : σ}
    (hStays : c.Stays x) (hAlone : scope.modifiers = [])
    (hValues : ((valuedAll env.surroundings keys rows).run clock).1 = .ok entries)
    (hRoom : HasRoom env rows.length) (hCount : rows.length ≤ maxCount) :
    entries.map Prod.snd = rows ∧
      (∀ entry ∈ entries, List.Forall₂ (Gives env.surroundings entry.2) keys entry.1) ∧
      ∃ sorted, StableSort Prod.fst SortKey.EarlierValues entries sorted ∧
        ∃ s later, ((pipe env).through (new keys scope env.spill) (Emission.feed rows)).deliver c
          (clock, x) = ((true, s), later, c.finish (c.receive (sorted.map Prod.snd) x)) := by
  obtain ⟨hRows, hGives⟩ := entries_of_valuedAll hValues
  have hDirected : Directed (keys.map Prod.fst) entries := fun entry hMem =>
    directions_of_gives (hGives entry hMem)
  obtain ⟨s, later, hFeed⟩ := (collected_new hAlone).feed (x := x) hStays hValues
    (by simpa using hRoom) (by simpa using hCount)
  exact ⟨hRows, hGives, _, hDirected.stableSort, s, later, hFeed⟩

/-- Five rows in descending order, of which two make a run. -/
theorem sorts_stably_descending :
    let env : Environment := { Environment.ofDataset .empty with spill := ⟨2, true⟩ }
    let one : Solution := .ofList [("x", .integer 1)]
    let other : Solution := .ofList [("x", .integer 1), ("y", .integer 0)]
    let two : Solution := .ofList [("x", .integer 2)]
    let keys : List (Direction × Expr) := [(.descending, .var "x")]
    let rows : List Solution := [.empty, other, one, two, one]
    ∃ sorted, StableSort Prod.fst SortKey.EarlierValues
        (rows.map fun row => ([(.descending, row.get? "x")], row)) sorted ∧
      ∃ s later, ((pipe env).through (new keys .root env.spill) (Emission.feed rows)).deliver
        Recorder.consumer (.starting 0, .new none none) = ((true, s), later,
          Recorder.consumer.finish (Recorder.consumer.receive (sorted.map Prod.snd) (.new none none))) :=
  (sorts_stably Recorder.stays rfl rfl (.inl rfl) (by decide)).2.2

/-- A recorder writes the last row down first. The unbound row comes last, and the rows that are tied stay as
they came. -/
example :
    let env : Environment := { Environment.ofDataset .empty with spill := ⟨2, true⟩ }
    let one : Solution := .ofList [("x", .integer 1)]
    let other : Solution := .ofList [("x", .integer 1), ("y", .integer 0)]
    let two : Solution := .ofList [("x", .integer 2)]
    (((pipe env).through (new [(.descending, .var "x")] .root env.spill)
        (Emission.feed [.empty, other, one, two, one])).deliver Recorder.consumer
      (.starting 0, .new none none)).2.2.rows = [.empty, one, one, other, two] := by
  cbv

end

end Sorting

end SolutionFlow
