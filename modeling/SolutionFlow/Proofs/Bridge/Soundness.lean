import Mathlib.Data.List.ReduceOption
import SolutionFlow.Proofs.Bridge.Crossing

/-! What a bridge and its reader know of what has been done. The queue has no more in it than fits, and
what was accepted has been given to the reader, is in its hand or waits; the failures are kept in the
order in which they were reported; and the stream is over for a reason. -/
namespace SolutionFlow

/-- To take what is within two options is to take what is within the first, and then within the second. -/
theorem filterMap_eq_reduceOption {α β : Type} {f : α → Option β} {g : α → Option (Option β)}
    (h : ∀ x, f x = (g x).join) (xs : List α) : xs.filterMap f = (xs.filterMap g).reduceOption := by
  rw [List.reduceOption, List.filterMap_filterMap]
  refine List.filterMap_congr fun x _ => ?_
  rw [h]
  cases g x <;> rfl

theorem reduceOption_map_some {α : Type} (xs : List α) : (xs.map some).reduceOption = xs := by
  rw [List.reduceOption, List.filterMap_map]
  exact List.filterMap_some

namespace Delivery

/-- The row that is delivered, if it is one. -/
def row? : Delivery → Option Solution
  | .row solution => some solution
  | _ => none

/-- What the reader is told by a delivery: a row, or that the stream ends. A call to look for a failure
tells nothing. -/
def word? : Delivery → Option (Option Solution)
  | .row solution => some (some solution)
  | .finish => some none
  | .wake => none

theorem row?_eq (d : Delivery) : d.row? = d.word?.join := by
  cases d <;> rfl

theorem exists_word {d : Delivery} (hReal : d ≠ .wake) : ∃ word, d.word? = some word := by
  cases d with
  | row row => exact ⟨some row, rfl⟩
  | finish => exact ⟨none, rfl⟩
  | wake => exact absurd rfl hReal

end Delivery

namespace Deed

/-- The row that a push has handed over. -/
def accepted? : Deed → Option Solution
  | .produced _ (.accepted d) => d.row?
  | _ => none

/-- What the reader is told by what a push has handed over. -/
def word? : Deed → Option (Option Solution)
  | .produced _ (.accepted d) => d.word?
  | _ => none

/-- The row that the reader has been given. -/
def returned? : Deed → Option Solution
  | .read (.replied (some (.ok row))) => some row
  | _ => none

/-- The failure that has been reported. -/
def failure? : Deed → Option QueryError
  | .produced _ (.noted error) => some error
  | _ => none

/-- Whether the stream is over for the reader after this: it has been given a failure or the end, or
has closed the bridge. -/
def ends : Deed → Bool
  | .read (.replied (some (.ok _))) => false
  | .read (.replied _) => true
  | .read .closed => true
  | _ => false

/-- Whether this is an action of the producer with number `k`. -/
def isOf (k : Nat) : Deed → Bool
  | .produced j _ => j == k
  | _ => false

theorem accepted?_eq (d : Deed) : d.accepted? = d.word?.join := by
  cases d with
  | produced k act =>
      cases act with
      | accepted d => exact d.row?_eq
      | _ => rfl
  | _ => rfl

theorem returned?_of_ends {glance : Glance} (h : (Deed.read glance).ends = true) :
    (Deed.read glance).returned? = none := by
  revert h
  simp only [ends, returned?]
  split <;> simp_all

end Deed

namespace History

def accepted (h : History) : List Solution := h.filterMap Deed.accepted?

/-- What the reader is told by all that was accepted, in this order: rows, and ends of streams. -/
def words (h : History) : List (Option Solution) := h.filterMap Deed.word?

def returned (h : History) : List Solution := h.filterMap Deed.returned?

def failures (h : History) : List QueryError := h.filterMap Deed.failure?

variable (h h' : History)

@[simp]
theorem accepted_append : accepted (h ++ h') = h.accepted ++ h'.accepted := List.filterMap_append

@[simp]
theorem words_append : words (h ++ h') = h.words ++ h'.words := List.filterMap_append

@[simp]
theorem returned_append : returned (h ++ h') = h.returned ++ h'.returned := List.filterMap_append

@[simp]
theorem failures_append : failures (h ++ h') = h.failures ++ h'.failures := List.filterMap_append

/-- The rows that were accepted are those among what the reader is told. -/
theorem accepted_eq : h.accepted = h.words.reduceOption :=
  filterMap_eq_reduceOption Deed.accepted?_eq h

end History

namespace Bridge

variable (b : Bridge)

/-- The rows that wait. -/
def rows : List Solution := b.queue.filterMap Delivery.row?

/-- What the reader is still to be told by the deliveries that wait. -/
def words : List (Option Solution) := b.queue.filterMap Delivery.word?

theorem rows_eq : b.rows = b.words.reduceOption := filterMap_eq_reduceOption Delivery.row?_eq b.queue

/-- The failures that are kept. -/
def failures : List QueryError := b.first.toList ++ b.later

end Bridge

namespace Bridge

variable {b : Bridge}

/-- Keeping a failure changes nothing else. -/
theorem note_eq (b : Bridge) (error : QueryError) :
    ∃ first later, b.note error = { b with first := some first, later := later } := by
  unfold note
  split
  · exact ⟨error, b.later, rfl⟩
  next first hFirst => exact ⟨first, b.later ++ [error], by rw [← hFirst]⟩

theorem failures_note (error : QueryError) (hLater : b.first = none → b.later = []) :
    (b.note error).failures = b.failures ++ [error] := by
  unfold note
  split
  next hNone => simp [failures, hNone, hLater hNone]
  next first hSome => simp [failures, hSome]

/-- A call to look for a failure is no row. -/
theorem wake_eq (b : Bridge) :
    b.wake = b ∨ b.hasRoom = true ∧ b.wake = { b with queue := b.queue ++ [.wake] } := by
  unfold wake
  split
  next hRoom => exact .inr ⟨hRoom, rfl⟩
  next => exact .inl rfl

theorem hasRoom_iff : b.hasRoom = true ↔ b.queue.length + 1 ≤ b.capacity :=
  decide_eq_true_iff

/-- The failures are taken together, the later ones behind the first. -/
theorem takeError_eq_some {error : QueryError} (h : b.takeError.1 = some error) :
    ∃ first, b.first = some first ∧ error = first.withSuppressed b.later ∧
      b.takeError.2 = { b with first := none, later := [] } := by
  unfold takeError at h ⊢
  split at h
  next => simp at h
  next first hFirst => exact ⟨first, hFirst, (Option.some.inj h).symm, rfl⟩

/-- The delivery that has waited longest is taken. -/
theorem dequeue_eq (b : Bridge) :
    b.queue = b.dequeue.1.toList ++ b.dequeue.2.queue ∧
      b.dequeue.2 = { b with queue := b.dequeue.2.queue } := by
  unfold dequeue
  split
  next hEmpty => exact ⟨by simp [hEmpty], rfl⟩
  next d rest hQueue => exact ⟨hQueue, rfl⟩

end Bridge

/-- What a producer can do to a bridge. -/
theorem Producer.Moves.effect {env : Environment} {b b' : Bridge} {p q : Producer} {act : Act}
    (move : p.Moves env b act b' q) :
    (b' = b ∧ ∀ k, (Deed.produced k act).word? = none ∧ (Deed.produced k act).failure? = none) ∨
      (∃ d, act = .accepted d ∧ b.hasRoom = true ∧ b' = b.enqueue d) ∨
      (∃ error, act = .noted error ∧ b' = b.note error) ∨
      (act = .inner ∧ (b' = b.cancel ∨ b' = b.wake)) := by
  cases move with
  | accept hRoom => exact .inr (.inl ⟨_, rfl, hRoom, rfl⟩)
  | note => exact .inr (.inr (.inl ⟨_, rfl, rfl⟩))
  | cancel => exact .inr (.inr (.inr ⟨rfl, .inl rfl⟩))
  | wake => exact .inr (.inr (.inr ⟨rfl, .inr rfl⟩))
  | _ => exact .inl ⟨rfl, fun _ => ⟨rfl, rfl⟩⟩

/-- What no producer changes, and what none takes back. -/
structure Bridge.Grows (b b' : Bridge) : Prop where
  finished : b'.finished = b.finished
  outerClosed : b'.outerClosed = b.outerClosed
  cancelled : b.cancelled = true → b'.cancelled = true
  first : b.first ≠ none → b'.first ≠ none
  queue : b.queue <+: b'.queue

theorem Producer.Moves.grows {env : Environment} {b b' : Bridge} {p q : Producer} {act : Act}
    (move : p.Moves env b act b' q) : b.Grows b' := by
  obtain ⟨rfl, -⟩ | ⟨d, -, -, rfl⟩ | ⟨error, -, rfl⟩ | ⟨-, rfl | rfl⟩ := move.effect
  · exact ⟨rfl, rfl, id, id, List.prefix_rfl⟩
  · exact ⟨rfl, rfl, id, id, List.prefix_append _ _⟩
  · obtain ⟨first, later, hNote⟩ := b.note_eq error
    rw [hNote]
    exact ⟨rfl, rfl, id, nofun, List.prefix_rfl⟩
  · exact ⟨rfl, rfl, fun _ => rfl, id, List.prefix_rfl⟩
  · obtain hSame | ⟨-, hQueued⟩ := b.wake_eq
    · rw [hSame]
      exact ⟨rfl, rfl, id, id, List.prefix_rfl⟩
    · rw [hQueued]
      exact ⟨rfl, rfl, id, id, List.prefix_append _ _⟩

namespace Reader

/-- What the reader has received and not dealt with yet. -/
def inHand : Reader → Option Delivery
  | .holding d | .judging d => d
  | _ => none

/-- The row that the reader has received and is still to be given. -/
def rows (r : Reader) : List Solution := (r.inHand.bind Delivery.row?).toList

/-- What the reader has received and is still to be told. -/
def words (r : Reader) : List (Option Solution) := (r.inHand.bind Delivery.word?).toList

theorem rows_eq (r : Reader) : r.rows = r.words.reduceOption := by
  rw [rows, words]
  cases r.inHand with
  | none => rfl
  | some d => cases d <;> rfl

/-- What is in hand is what the call gives, if there is no failure. -/
theorem leads_judging (b : Bridge) {d : Delivery} {word : Option Solution} (hWord : d.word? = some word) :
    Leads b (.judging (some d)) (.replied (word.map .ok)) := by
  cases d with
  | row row =>
      obtain rfl := Option.some.inj hWord
      exact leads_of_last .give
  | finish =>
      obtain rfl := Option.some.inj hWord
      exact .of_move .finish ⟨_, _, runs_shutting _ b⟩
  | wake => exact nomatch hWord

/-- A reader that looks is given what has waited longest, if there is no failure. It looks again behind a
call to look for one. -/
theorem leads_word {b : Bridge} {word : Option Solution} {later : List (Option Solution)}
    (hOpen : b.finished = false) (hNone : b.first = none) (hWords : b.words = word :: later) :
    Leads b .looking (.replied (word.map .ok)) := by
  obtain ⟨capacity, queue, cancelled, outerClosed, first, others, finished⟩ := b
  -- By induction on the calls to look for a failure that stand before the word.
  induction queue with
  | nil => exact nomatch hWords
  | cons d rest ih =>
      have hPass : Moves ⟨capacity, rest, cancelled, outerClosed, first, others, finished⟩
          (.holding (some d)) .inner _ (.judging (some d)) := .pass hNone
      apply Leads.of_move (.receive hOpen)
      apply Leads.of_move hPass
      cases d with
      | row row =>
          obtain rfl := (List.cons.inj hWords).1
          exact leads_judging _ rfl
      | finish =>
          obtain rfl := (List.cons.inj hWords).1
          exact leads_judging _ rfl
      | wake => exact .of_move (.again (.inr rfl)) (ih hOpen hNone hWords)

/-- Whether the stream is over and the producers are stopped, by where the reader stands. A call that
closes the bridge is the last one that gives anything. -/
def Fits (finished cancelled : Bool) : Reader → Prop
  | .resting | .looking => finished = true → cancelled = true
  | .holding _ | .judging _ => finished = false
  | .shutting last => finished = true ∧ (Deed.read last).ends = true
  | .draining last => finished = true ∧ cancelled = true ∧ (Deed.read last).ends = true

end Reader

/-- What a bridge and its reader know of what has been done so far. -/
structure Sound (capacity : Nat) (h : History) (b : Bridge) (r : Reader) : Prop where
  capacity_eq : b.capacity = max 1 capacity
  bounded : b.queue.length ≤ b.capacity
  inOrder : h.returned <+: h.accepted
  inTurn : b.finished = false → h.words = h.returned.map some ++ r.words ++ b.words
  kept : b.finished = false → b.failures = h.failures
  later_nil : b.first = none → b.later = []
  fits : r.Fits b.finished b.cancelled
  finish_received : r.inHand = some .finish → .read (.received (some .finish)) ∈ h
  ended : b.finished = true →
    .read (.received (some .finish)) ∈ h ∨ .read .closing ∈ h ∨ h.failures ≠ []

namespace Sound

variable {env : Environment} {capacity : Nat} {h : History} {b b' : Bridge} {r r' : Reader}

theorem opening (capacity : Nat) (stopped : Bool) :
    Sound capacity [] (.within capacity stopped) .resting where
  capacity_eq := rfl
  bounded := Nat.zero_le _
  inOrder := List.prefix_rfl
  inTurn _ := rfl
  kept _ := rfl
  later_nil _ := rfl
  fits hFinished := absurd hFinished (by simp [Bridge.within, Bridge.new])
  finish_received hSome := by simp [Reader.inHand] at hSome
  ended hFinished := absurd hFinished (by simp [Bridge.within, Bridge.new])

/-- Until the stream is over, no row is lost. -/
theorem waiting (hSound : Sound capacity h b r) (hOpen : b.finished = false) :
    h.accepted = h.returned ++ r.rows ++ b.rows := by
  rw [History.accepted_eq, hSound.inTurn hOpen, List.reduceOption_append, List.reduceOption_append,
    reduceOption_map_some, r.rows_eq, b.rows_eq]

/-- What no one has been told of leaves all as it was. -/
theorem unheard (hSound : Sound capacity h b r) {d : Deed} (hWord : d.word? = none)
    (hReturned : d.returned? = none) (hFailure : d.failure? = none) :
    Sound capacity (h ++ [d]) b r := by
  have hWords : History.words (h ++ [d]) = h.words := by
    simp [History.words, hWord]
  have hRows : History.accepted (h ++ [d]) = h.accepted := by
    rw [History.accepted_eq, hWords, ← History.accepted_eq]
  have hGiven : History.returned (h ++ [d]) = h.returned := by
    simp [History.returned, hReturned]
  have hFailures : History.failures (h ++ [d]) = h.failures := by
    simp [History.failures, hFailure]
  refine { hSound with
    inOrder := hGiven ▸ hRows ▸ hSound.inOrder
    inTurn := fun hOpen => hGiven ▸ hWords ▸ hSound.inTurn hOpen
    kept := fun hOpen => hFailures ▸ hSound.kept hOpen
    finish_received := fun hSome => List.mem_append_left _ (hSound.finish_received hSome)
    ended := fun hFinished => ?_ }
  rw [hFailures]
  exact (hSound.ended hFinished).imp (List.mem_append_left _)
    (Or.imp_left (List.mem_append_left _))

/-- Stopping the producers changes nothing that the reader is given. -/
theorem cancel (hSound : Sound capacity h b r) : Sound capacity h b.cancel r := by
  refine { hSound with fits := ?_ }
  have hFits := hSound.fits
  cases r with
  | resting => exact fun _ => rfl
  | looking => exact fun _ => rfl
  | holding d => exact hFits
  | judging d => exact hFits
  | shutting last => exact hFits
  | draining last => exact ⟨hFits.1, rfl, hFits.2.2⟩

/-- So does stopping the query around this one. -/
theorem stop (hSound : Sound capacity h b r) : Sound capacity h { b with outerClosed := true } r :=
  { hSound with }

/-- A delivery that is accepted waits behind all others. -/
theorem enqueue (hSound : Sound capacity h b r) (hRoom : b.hasRoom = true) (d : Delivery) (k : Nat) :
    Sound capacity (h ++ [.produced k (.accepted d)]) (b.enqueue d) r := by
  have hWords : History.words [.produced k (.accepted d)] = d.word?.toList := by
    cases d <;> rfl
  have hReturned : History.returned [.produced k (.accepted d)] = [] := rfl
  have hFailures : History.failures [.produced k (.accepted d)] = [] := rfl
  have hQueued : (b.enqueue d).words = b.words ++ d.word?.toList := by
    cases d <;> simp [Bridge.words, Bridge.enqueue, Delivery.word?]
  refine { hSound with
    bounded := ?_
    inOrder := ?_
    inTurn := fun hOpen => ?_
    kept := fun hOpen => ?_
    finish_received := fun hSome => List.mem_append_left _ (hSound.finish_received hSome)
    ended := fun hFinished => ?_ }
  · simpa [Bridge.enqueue] using Bridge.hasRoom_iff.mp hRoom
  · simpa [hReturned] using hSound.inOrder.trans (List.prefix_append _ _)
  · rw [History.words_append, hWords, hSound.inTurn hOpen, hQueued, History.returned_append, hReturned,
      List.append_nil, List.append_assoc]
  · rw [History.failures_append, hFailures, List.append_nil]
    exact hSound.kept hOpen
  · rw [History.failures_append, hFailures, List.append_nil]
    exact (hSound.ended hFinished).imp (List.mem_append_left _) (Or.imp_left (List.mem_append_left _))

/-- A call to look for a failure waits like a delivery, but is no row. -/
theorem wake (hSound : Sound capacity h b r) : Sound capacity h b.wake r := by
  obtain hSame | ⟨hRoom, hQueued⟩ := b.wake_eq
  · rwa [hSame]
  · rw [hQueued]
    refine { hSound with
      bounded := ?_
      inTurn := fun hOpen => ?_ }
    · simpa using Bridge.hasRoom_iff.mp hRoom
    · rw [hSound.inTurn hOpen]
      simp [Bridge.words, Delivery.word?]

/-- A failure that is reported is kept behind all others. -/
theorem note (hSound : Sound capacity h b r) (error : QueryError) (k : Nat) :
    Sound capacity (h ++ [.produced k (.noted error)]) (b.note error) r := by
  have hAccepted : History.accepted [.produced k (.noted error)] = [] := rfl
  have hWords : History.words [.produced k (.noted error)] = [] := rfl
  have hReturned : History.returned [.produced k (.noted error)] = [] := rfl
  have hFailures : History.failures [.produced k (.noted error)] = [error] := rfl
  have hKept := Bridge.failures_note error hSound.later_nil
  obtain ⟨first, later, hNote⟩ := b.note_eq error
  rw [hNote] at hKept ⊢
  refine { hSound with
    inOrder := ?_
    inTurn := fun hOpen => ?_
    kept := fun hOpen => ?_
    later_nil := fun hNone => by simp at hNone
    fits := ?_
    finish_received := fun hSome => List.mem_append_left _ (hSound.finish_received hSome)
    ended := fun _ => .inr (.inr (by simp [hFailures])) }
  · simpa [hAccepted, hReturned] using hSound.inOrder
  · simpa [hWords, hReturned, Bridge.words] using hSound.inTurn hOpen
  · rw [hKept, hSound.kept hOpen, History.failures_append, hFailures]
  · exact hSound.fits

/-- An action of a producer. -/
theorem produce (hSound : Sound capacity h b r) {act : Act} {p q : Producer}
    (move : p.Moves env b act b' q) (k : Nat) :
    Sound capacity (h ++ [.produced k act]) b' r := by
  obtain ⟨rfl, hUnheard⟩ | ⟨d, rfl, hRoom, rfl⟩ | ⟨error, rfl, rfl⟩ | ⟨rfl, rfl | rfl⟩ := move.effect
  · exact hSound.unheard (hUnheard k).1 rfl (hUnheard k).2
  · exact hSound.enqueue hRoom d k
  · exact hSound.note error k
  · exact hSound.cancel.unheard rfl rfl rfl
  · exact hSound.wake.unheard rfl rfl rfl

/-- The reader turns to something else, with the same in hand. -/
theorem turn (hSound : Sound capacity h b r) (r' : Reader) (hWords : r'.words = r.words)
    (hFits : r'.Fits b.finished b.cancelled)
    (hHand : r'.inHand = some .finish → r.inHand = some .finish) :
    Sound capacity h b r' :=
  { hSound with
    inTurn := fun hOpen => hWords ▸ hSound.inTurn hOpen
    fits := hFits
    finish_received := fun hSome => hSound.finish_received (hHand hSome) }

/-- The stream ends for a reason. -/
theorem shut (hSound : Sound capacity h b r) (last : Glance) (hLast : (Deed.read last).ends = true)
    (hReason : .read (.received (some .finish)) ∈ h ∨ .read .closing ∈ h ∨ h.failures ≠ []) :
    Sound capacity h { b with finished := true } (.shutting last) where
  capacity_eq := hSound.capacity_eq
  bounded := hSound.bounded
  inOrder := hSound.inOrder
  inTurn hOpen := by simp at hOpen
  kept hOpen := by simp at hOpen
  later_nil := hSound.later_nil
  fits := ⟨rfl, hLast⟩
  finish_received hSome := by simp [Reader.inHand] at hSome
  ended _ := hReason

/-- The reader takes what has waited longest. -/
theorem receive (hSound : Sound capacity h b .looking) (hOpen : b.finished = false) :
    Sound capacity (h ++ [.read (.received b.dequeue.1)]) b.dequeue.2 (.holding b.dequeue.1) := by
  obtain ⟨hQueue, hRest⟩ := b.dequeue_eq
  generalize b.dequeue.1 = d at *
  generalize b.dequeue.2.queue = rest at *
  rw [hRest]
  refine { hSound.unheard (d := .read (.received d)) rfl rfl rfl with
    bounded := ?_
    inTurn := fun _ => ?_
    fits := hOpen
    finish_received := ?_ }
  · have hBounded := hSound.bounded
    rw [hQueue, List.length_append] at hBounded
    exact Nat.le_trans (Nat.le_add_left _ _) hBounded
  · have hWords : b.words = (Reader.holding d).words ++ rest.filterMap Delivery.word? := by
      rw [Bridge.words, hQueue, List.filterMap_append]
      cases d <;> rfl
    have hTurn := (hSound.unheard (d := .read (.received d)) rfl rfl rfl).inTurn hOpen
    rw [hTurn, hWords]
    simp [Reader.words, Reader.inHand, Bridge.words]
  · rintro ⟨⟩
    simp

/-- The reader takes the failures, and the stream is over. -/
theorem take (hSound : Sound capacity h b r) {error : QueryError} (hError : b.takeError.1 = some error)
    (hOpen : b.finished = false) :
    Sound capacity (h ++ [.read .took]) { b.takeError.2 with finished := true }
      (.shutting (.replied (some (.error error)))) := by
  obtain ⟨first, hFirst, -, hTaken⟩ := Bridge.takeError_eq_some hError
  have hFailed : h.failures ≠ [] := by
    rw [← hSound.kept hOpen, Bridge.failures, hFirst]
    simp
  have hShut := (hSound.shut (.replied (some (.error error))) rfl (.inr (.inr hFailed))).unheard
    (d := .read .took) rfl rfl rfl
  rw [hTaken]
  exact { hShut with
    kept := fun hOpen => by simp at hOpen
    later_nil := fun _ => rfl }

/-- The reader drops what has waited longest. -/
theorem drop (hSound : Sound capacity h b r) (hFinished : b.finished = true) :
    Sound capacity h b.dequeue.2 r := by
  obtain ⟨hQueue, hRest⟩ := b.dequeue_eq
  generalize b.dequeue.2.queue = rest at *
  rw [hRest]
  refine { hSound with
    bounded := ?_
    inTurn := fun hOpen => by simp [hFinished] at hOpen }
  have hBounded := hSound.bounded
  rw [hQueue, List.length_append] at hBounded
  exact Nat.le_trans (Nat.le_add_left _ _) hBounded

/-- The reader is given the row in hand. -/
theorem give {row : Solution} (hSound : Sound capacity h b (.judging (some (.row row)))) :
    Sound capacity (h ++ [.read (.replied (some (.ok row)))]) b .resting := by
  have hOpen : b.finished = false := hSound.fits
  have hAccepted : History.accepted [.read (.replied (some (.ok row)))] = [] := rfl
  have hReturned : History.returned [.read (.replied (some (.ok row)))] = [row] := rfl
  have hFailures : History.failures [.read (.replied (some (.ok row)))] = [] := rfl
  have hWords : History.words [.read (.replied (some (.ok row)))] = [] := rfl
  have hTurn : h.words = h.returned.map some ++ [some row] ++ b.words := hSound.inTurn hOpen
  refine { hSound with
    inOrder := ?_
    inTurn := fun _ => ?_
    kept := fun hOpen => ?_
    fits := fun hFinished => by simp [hOpen] at hFinished
    finish_received := fun hSome => by simp [Reader.inHand] at hSome
    ended := fun hFinished => by simp [hOpen] at hFinished }
  · rw [History.accepted_append, hAccepted, History.returned_append, hReturned, hSound.waiting hOpen]
    simp [Reader.rows, Reader.inHand, Delivery.row?]
  · rw [History.words_append, hWords, History.returned_append, hReturned, hTurn]
    simp [Reader.words, Reader.inHand]
  · simpa [hFailures] using hSound.kept hOpen

/-- An action of the reader. -/
theorem read (hSound : Sound capacity h b r) {glance : Glance} (move : r.Moves b glance b' r') :
    Sound capacity (h ++ [.read glance]) b' r' := by
  have hFits := hSound.fits
  cases move with
  | ask => exact (hSound.turn .looking rfl hFits (by simp [Reader.inHand])).unheard rfl rfl rfl
  | closed hFinished =>
      exact (hSound.turn .resting rfl hFits (by simp [Reader.inHand])).unheard rfl rfl rfl
  | receive hOpen => exact hSound.receive hOpen
  | take hError => exact hSound.take hError hFits
  | pass hNone => exact (hSound.turn (.judging _) rfl hFits id).unheard rfl rfl rfl
  | give => exact hSound.give
  | finish =>
      exact (hSound.shut (.replied none) rfl (.inl (hSound.finish_received rfl))).unheard
        rfl rfl rfl
  | again hNothing =>
      refine (hSound.turn .looking ?_ ?_ (by simp [Reader.inHand])).unheard rfl rfl rfl
      · obtain rfl | rfl := hNothing <;> rfl
      · exact fun hFinished => absurd hFinished (by simp [hFits.symm])
  | close =>
      exact (hSound.unheard (d := .read .closing) rfl rfl rfl).shut .closed rfl
        (.inr (.inl (by simp)))
  | cancel =>
      exact (hSound.cancel.turn (.draining _) rfl ⟨hFits.1, rfl, hFits.2⟩
        (by simp [Reader.inHand])).unheard rfl rfl rfl
  | drop hSome => exact (hSound.drop hFits.1).unheard rfl rfl rfl
  | leave hEmpty =>
      exact (hSound.turn .resting rfl (fun _ => hFits.2.1) (by simp [Reader.inHand])).unheard
        rfl (Deed.returned?_of_ends hFits.2.2) rfl

end Sound

/-- A bridge stays sound, whoever acts and in whatever order. -/
theorem Crossing.Course.sound {env : Environment} {capacity : Nat} {stopped : Bool}
    {starts : List (Emission Process)} {h : History} {s : Crossing}
    (course : Course env (opening capacity stopped starts) h s) :
    Sound capacity h s.bridge s.reader := by
  induction course with
  | start => exact .opening capacity stopped
  | step prior last ih =>
      cases last with
      | produce hGet move => exact ih.produce move _
      | read move => exact ih.read move
      | stop => exact ih.stop.unheard rfl rfl rfl

end SolutionFlow
