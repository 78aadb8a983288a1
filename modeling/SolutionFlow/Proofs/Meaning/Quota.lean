import SolutionFlow.Proofs.Flow.Tower
import SolutionFlow.Proofs.Meaning.Modifiers

/-! How many rows the modifiers around a sort take. A tower of them refuses a row at the latest when as many
have come as the sort is told to keep, whatever the consumer replies; so all that is handed to it
beyond these goes unheard. -/
namespace SolutionFlow

namespace Modifier

/-- A slice of no rows. -/
def takesNone : Modifier → Bool
  | .slice _ limit => decide (limit = some 0)
  | .distinct | .reduced => false

/-- The operator of a modifier. -/
def operator (spill : SpillOptions) : Modifier → Operator
  | .distinct => .distinct ⟨.new spill⟩
  | .reduced => .reduced ⟨none⟩
  | .slice offset limit => .slice (.ofSlice offset limit)

theorem operator_not_opens (spill : SpillOptions) (m : Modifier) : (m.operator spill).opens = false := by
  cases m <;> rfl

end Modifier

namespace Operator

variable {env : Environment} {distinct : Bool} {given more : List Solution} {ops : List Operator}
  {row : Solution} {n : Nat}

/-- Whatever is replied to them, these operators refuse a row at the latest with the `n`-th from now on.
If they drop repeated rows, that is so if none of those rows repeats another or a given one. -/
def StopsWithin (distinct : Bool) (given : List Solution) : List Operator → Nat → Prop
  | .slice w :: outer, n =>
    w.count + n ≤ maxCount ∧
      ((w.offset < w.last ∧ w.count < w.last ∧ w.count + n = w.last) ∨
        ∃ rest, n = (w.offset - w.count) + rest ∧ StopsWithin distinct given outer rest)
  | .distinct s :: outer, n =>
    distinct = true ∧ (∀ row ∈ s.seen.members, row ∈ given) ∧ StopsWithin distinct given outer n
  | .reduced s :: outer, n =>
    distinct = true ∧ (∀ row, s.previous = some row → row ∈ given) ∧
      StopsWithin distinct given outer n
  | _, _ => False

theorem StopsWithin.pos (h : StopsWithin distinct given ops n) : 0 < n := by
  induction ops generalizing n with
  | nil => exact h.elim
  | cons op outer ih =>
      cases op with
      | slice w =>
          obtain ⟨-, ⟨-, hBefore, hEnd⟩ | ⟨rest, rfl, hRest⟩⟩ := h
          · omega
          · have := ih hRest
            omega
      | distinct s => exact ih h.2.2
      | reduced s => exact ih h.2.2
      | _ => exact h.elim

theorem StopsWithin.mono (h : StopsWithin distinct given ops n) (hSub : ∀ row ∈ given, row ∈ more) :
    StopsWithin distinct more ops n := by
  induction ops generalizing n with
  | nil => exact h.elim
  | cons op outer ih =>
      cases op with
      | slice w => exact ⟨h.1, h.2.imp_right fun ⟨rest, hCount, hRest⟩ => ⟨rest, hCount, ih hRest⟩⟩
      | distinct s =>
          exact ⟨h.1, fun row hMem => hSub row (h.2.1 row hMem), ih h.2.2⟩
      | reduced s => exact ⟨h.1, fun row hPrevious => hSub row (h.2.1 row hPrevious), ih h.2.2⟩
      | _ => exact h.elim

/-- What is left to come when one more row has been accepted. -/
abbrev StopsAfter (distinct : Bool) (given : List Solution) (n : Nat) (reply : Bool × List Operator) :
    Prop :=
  reply.1 = true → StopsWithin distinct given reply.2 (n - 1)

section

variable {outer : List Operator}

theorem ensures_refusal {σ : Type} {wrap : σ → Operator} {s : σ} :
    (chain env outer (pure (false, s))).Ensures (fun _ => True) fun r =>
      StopsAfter distinct given n (r.1.1, wrap r.1.2 :: r.2) := by
  simp [chain_pure, StopsAfter]

/-- What a row of a window leaves to come, if it passes the window only when it passes the others. -/
theorem stopsWithin_window {w : Window} (h : StopsWithin distinct given (.slice w :: outer) n)
    (hOuter : ∀ {rest}, StopsWithin distinct given outer rest →
      (chain env outer (Emission.push row)).Ensures (fun _ => True)
        (StopsAfter distinct (row :: given) rest)) :
    (chain env outer (w.onRow row)).Ensures (fun _ => True) fun r =>
      StopsAfter distinct (row :: given) n (r.1.1, .slice r.1.2 :: r.2) := by
  have hPositive := h.pos
  obtain ⟨hCount, hLeft⟩ := h
  unfold Window.onRow
  split
  · exact ensures_refusal
  have hNext : w.nextNumber = w.count + 1 := Window.nextNumber_eq (by omega)
  simp only [hNext]
  split
  next hSkip =>
    simp only [chain_pure, Emission.ensures_pure, StopsAfter]
    refine fun _ => ⟨by dsimp only; omega, ?_⟩
    obtain ⟨hWindow, hBefore, hEnd⟩ | ⟨rest, hRest, hStops⟩ := hLeft
    · refine .inl ⟨hWindow, ?_, ?_⟩ <;> dsimp only <;> omega
    · refine .inr ⟨rest, by dsimp only; omega, hStops.mono fun _ => List.mem_cons_of_mem _⟩
  next hPast =>
    split
    next hInside =>
      simp only [chain_bind, chain_pure, Emission.ensures_bind, Emission.ensures_pure, StopsAfter]
      obtain ⟨hWindow, hBefore, hEnd⟩ | ⟨rest, hRest, hStops⟩ := hLeft
      · refine Emission.ensures_of_forall _ (fun _ => trivial) fun r hMore => ⟨by dsimp only; omega, ?_⟩
        refine .inl ⟨hWindow, ?_, ?_⟩ <;> dsimp only <;> omega
      · refine (hOuter hStops).mono (fun _ => id) fun r hNext hMore => ⟨by dsimp only; omega, ?_⟩
        have hSame : n = rest := by omega
        exact .inr ⟨rest - 1, by dsimp only; omega, hNext hMore⟩
    next hLast =>
      split
      · rw [chain_bind, Emission.ensures_bind]
        refine Emission.ensures_of_forall _ (fun _ => trivial) fun r => ?_
        split
        · simp only [chain_bind, Emission.ensures_bind]
          exact Emission.ensures_of_forall _ (fun _ => trivial) fun _ => ensures_refusal
        · exact ensures_refusal
      · exact ensures_refusal

theorem stopsWithin_distinct {s : Deduplicating}
    (h : StopsWithin distinct given (.distinct s :: outer) n) (hNew : distinct = true → row ∉ given)
    (hOuter : (chain env outer (Emission.push row)).Ensures (fun _ => True)
      (StopsAfter distinct (row :: given) n)) :
    (chain env outer (s.onRow row)).Ensures (fun _ => True) fun r =>
      StopsAfter distinct (row :: given) n (r.1.1, .distinct r.1.2 :: r.2) := by
  obtain ⟨hDrops, hSeen, -⟩ := h
  unfold Deduplicating.onRow
  split
  next seen hAdd =>
    obtain ⟨-, -, -, hMembers⟩ := MemberSet.add_ok hAdd
    simp only [chain_bind, chain_pure, Emission.ensures_bind, Emission.ensures_pure]
    refine hOuter.mono (fun _ => id) fun r hNext hMore => ⟨hDrops, fun x hMem => ?_, hNext hMore⟩
    rcases (hMembers x).mp hMem with hOld | rfl
    · exact List.mem_cons_of_mem _ (hSeen x hOld)
    · exact List.mem_cons_self
  next seen hAdd =>
    obtain ⟨hOld, -⟩ := MemberSet.add_ok hAdd
    exact absurd (hSeen row (by simpa using hOld)) (hNew hDrops)
  · exact ensures_refusal
  · simp only [chain_bind, chain_pure, Emission.ensures_bind, Emission.ensures_pure]
    exact Emission.ensures_of_forall _ (fun _ => trivial) (by simp [StopsAfter])

theorem stopsWithin_reduced {s : Reducing}
    (h : StopsWithin distinct given (.reduced s :: outer) n) (hNew : distinct = true → row ∉ given)
    (hOuter : (chain env outer (Emission.push row)).Ensures (fun _ => True)
      (StopsAfter distinct (row :: given) n)) :
    (chain env outer (Reducing.pipe.onRow s row)).Ensures (fun _ => True) fun r =>
      StopsAfter distinct (row :: given) n (r.1.1, .reduced r.1.2 :: r.2) := by
  obtain ⟨hDrops, hPrevious, -⟩ := h
  simp only [Reducing.pipe, Pipe.ofRow]
  split
  next hSame => exact absurd (hPrevious row hSame) (hNew hDrops)
  next hOther =>
    simp only [chain_bind, chain_pure, Emission.ensures_bind, Emission.ensures_pure]
    refine hOuter.mono (fun _ => id) fun r hNext hMore => ⟨hDrops, fun x hLast => ?_, hNext hMore⟩
    obtain rfl := Option.some.inj hLast
    exact List.mem_cons_self

end

/-- After a row that all of them have accepted, there is one less to come. -/
theorem StopsWithin.push (env : Environment) (h : StopsWithin distinct given ops n)
    (hNew : distinct = true → row ∉ given) :
    (chain env ops (Emission.push row)).Ensures (fun _ => True)
      (StopsAfter distinct (row :: given) n) := by
  induction ops generalizing n with
  | nil => exact h.elim
  | cons op outer ih =>
      cases op with
      | slice w =>
          rw [chain_push Window.pipe .slice rfl, Emission.ensures_map]
          exact stopsWithin_window h ih
      | distinct s =>
          rw [chain_push Deduplicating.pipe .distinct rfl, Emission.ensures_map]
          exact stopsWithin_distinct h hNew (ih h.2.2)
      | reduced s =>
          rw [chain_push Reducing.pipe .reduced rfl, Emission.ensures_map]
          exact stopsWithin_reduced h hNew (ih h.2.2)
      | _ => exact h.elim

/-- Of rows that are handed over at once, those beyond the ones that operators take make no
difference. -/
theorem StopsWithin.pushAll_take (h : StopsWithin distinct given ops n) {rows : List Solution}
    (hNew : distinct = true → rows.Nodup ∧ ∀ row ∈ rows, row ∉ given) :
    chain env ops (Emission.pushAll (rows.take n)) = chain env ops (Emission.pushAll rows) := by
  induction rows generalizing ops given n with
  | nil => simp
  | cons row rest ih =>
      obtain ⟨n, rfl⟩ : ∃ m, n = m + 1 := ⟨n - 1, by have := h.pos; omega⟩
      have hPush (rows : List Solution) : Emission.pushAll (row :: rows) =
          Emission.push row >>= fun more =>
            if more then Emission.pushAll rows else pure false := rfl
      rw [List.take_succ_cons, hPush, hPush, chain_bind, chain_bind]
      have hRow := h.push env fun hDrops => (hNew hDrops).2 row List.mem_cons_self
      refine Emission.bind_congr_of_ensures hRow fun r hNext => ?_
      obtain ⟨more, ops'⟩ := r
      cases more with
      | false => rfl
      | true =>
          refine ih (hNext rfl) fun hDrops => ?_
          obtain ⟨hNodup, hOld⟩ := hNew hDrops
          obtain ⟨hFirst, hRest⟩ := List.nodup_cons.mp hNodup
          refine ⟨hRest, fun other hMem => ?_⟩
          rw [List.mem_cons, not_or]
          exact ⟨fun hSame => hFirst (hSame ▸ hMem), hOld other (List.mem_cons_of_mem _ hMem)⟩

/-- A new window takes the rows up to its own limit, or as many as the operators outside of it take
besides those that it skips. -/
theorem stopsWithin_ofSlice {offset limit : Option UInt64} {outer : List Operator}
    {modifiers : List Modifier} (hSome : (Modifier.slice offset limit).takesNone = false)
    (hLimit : Scope.limitOf (.slice offset limit :: modifiers) < maxCount)
    (hOuter : Scope.limitOf modifiers < maxCount →
      StopsWithin distinct [] outer (Scope.limitOf modifiers)) :
    StopsWithin distinct [] (.slice (.ofSlice offset limit) :: outer)
      (Scope.limitOf (.slice offset limit :: modifiers)) := by
  cases limit with
  | some n =>
      have hPositive : 0 < n.toNat := by
        rw [Nat.pos_iff_ne_zero]
        exact fun hZero => by simp [Modifier.takesNone, ← UInt64.toNat_inj, hZero] at hSome
      have hEnd : Scope.limitOf (.slice offset (some n) :: modifiers) =
          (offset.getD 0).toNat + n.toNat := by
        cases offset <;> simp [Scope.limitOf, addCapped] at hLimit ⊢
        omega
      rw [hEnd] at hLimit ⊢
      refine ⟨?_, .inl ⟨?_, ?_, ?_⟩⟩ <;> simp only [Window.ofSlice, addCapped] <;> omega
  | none =>
      have hOwn : Scope.limitOf (.slice offset none :: modifiers) =
          (offset.getD 0).toNat + Scope.limitOf modifiers ∧ Scope.limitOf modifiers < maxCount := by
        cases offset with
        | none => simpa [Scope.limitOf] using hLimit
        | some n =>
            simp only [Scope.limitOf, Option.getD_some, addCapped] at hLimit ⊢
            split at hLimit <;> split <;> omega
      rw [hOwn.1] at hLimit ⊢
      exact ⟨by simpa [Window.ofSlice] using hLimit.le, .inr ⟨_, rfl, hOuter hOwn.2⟩⟩

/-- New operators of modifiers take as many rows as the place of a sort below them says, unless these are
unlimited. -/
theorem stopsWithin_limitOf (spill : SpillOptions) {modifiers : List Modifier}
    (hSome : ∀ m ∈ modifiers, m.takesNone = false)
    (hDrops : ∀ m ∈ modifiers, m.dropsRepeats = true → distinct = true)
    (hLimit : Scope.limitOf modifiers < maxCount) :
    StopsWithin distinct [] (modifiers.map (·.operator spill)) (Scope.limitOf modifiers) := by
  induction modifiers with
  | nil => simp [Scope.limitOf] at hLimit
  | cons m outer ih =>
      obtain ⟨hFirst, hOuter⟩ := List.forall_mem_cons.mp hSome
      obtain ⟨hDropsFirst, hDropsOuter⟩ := List.forall_mem_cons.mp hDrops
      cases m with
      | distinct =>
          exact ⟨hDropsFirst rfl, by simp [MemberSet.members, MemberSet.new],
            ih hOuter hDropsOuter hLimit⟩
      | reduced => exact ⟨hDropsFirst rfl, by simp, ih hOuter hDropsOuter hLimit⟩
      | slice offset limit => exact stopsWithin_ofSlice hFirst hLimit (ih hOuter hDropsOuter)

end Operator

end SolutionFlow
