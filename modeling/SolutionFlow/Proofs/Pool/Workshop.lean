import Mathlib.Data.List.Nodup
import SolutionFlow.Proofs.Pool.Moves

/-! Jobs on a worker pool that submit other jobs and wait for them. Those who submit, the core workers and the
overflow workers take their actions in any order; between the two actions of a submission anybody else may
act. A course is any order of such actions. -/
namespace SolutionFlow

/-- What is to be done by a job, or by a client who submits jobs from outside: to submit a job and to go on, to
wait for one of the jobs that have been submitted so far until it is over or has answered, to answer who
waits, or nothing more, because it returns or breaks off. -/
inductive Work where
  | submit (job : Work) (next : Work)
  | await (which : Nat) (next : Work)
  | answer (next : Work)
  | halt (panics : Bool)

/-- How far a job or a client has come: the job for which it has claimed a worker and which it has still to put
into the queue, the jobs that it has submitted, whether it has answered, and what is left of its work. -/
structure Conduct where
  holding : Option Nat
  submitted : List Nat
  answered : Bool
  work : Work

namespace Conduct

def new (work : Work) : Conduct := ⟨none, [], false, work⟩

/-- Nothing is left to be done. -/
def isOver (c : Conduct) : Bool :=
  match c.holding, c.work with
  | none, .halt _ => true
  | _, _ => false

end Conduct

/-- A pool with all who have to do with it. The first parties are clients; the others are the jobs that have been
accepted, and each has its place here as its number. -/
structure Workshop where
  clients : Nat
  pool : Pool
  parties : List Conduct

namespace Workshop

/-- A new pool, with clients who have done nothing so far. -/
def opening (threads : Nat) (clients : List Work) : Workshop :=
  ⟨clients.length, .new threads, clients.map .new⟩

variable (s : Workshop)

/-- A party can act if it is a client, or a job on some worker. -/
def Acts (k : Nat) : Prop := k < s.clients ∨ k ∈ s.pool.running ∨ k ∈ s.pool.overflow

/-- Nobody waits for this job any more. -/
def Settled (job : Nat) : Prop :=
  job ∈ s.pool.ran ∨ ∃ c, s.parties[job]? = some c ∧ c.answered = true

/-- What a party does, what it means to the pool, and the job that there is one more of. -/
inductive Does : Conduct → Pool.Move → Conduct → List Conduct → Prop where
  | claim {submitted : List Nat} {answered : Bool} {job next : Work} :
      Does ⟨none, submitted, answered, .submit job next⟩ (.claim s.parties.length)
        ⟨some s.parties.length, submitted ++ [s.parties.length], answered, next⟩ [.new job]
  | spawn {submitted : List Nat} {answered : Bool} {job next : Work} :
      Does ⟨none, submitted, answered, .submit job next⟩ (.spawn s.parties.length)
        ⟨none, submitted ++ [s.parties.length], answered, next⟩ [.new job]
  | enqueue {job : Nat} {submitted : List Nat} {answered : Bool} {work : Work} :
      Does ⟨some job, submitted, answered, work⟩ (.enqueue job) ⟨none, submitted, answered, work⟩ []
  | resume {submitted : List Nat} {answered : Bool} {which : Nat} {next : Work}
      (hSettled : ∀ job, submitted[which]? = some job → s.Settled job) :
      Does ⟨none, submitted, answered, .await which next⟩ .none ⟨none, submitted, answered, next⟩ []
  | answer {submitted : List Nat} {answered : Bool} {next : Work} :
      Does ⟨none, submitted, answered, .answer next⟩ .none ⟨none, submitted, true, next⟩ []

/-- One action: of a party, of a worker whose job is over, or of a core worker that takes a job or is back. -/
inductive Step : Pool.Move → Workshop → Prop where
  | act {c c' : Conduct} {front back added : List Conduct} {m : Pool.Move}
      (hParties : s.parties = front ++ c :: back) (hActs : s.Acts front.length)
      (does : s.Does c m c' added) (hAllows : s.pool.Allows m) :
      Step m ⟨s.clients, s.pool.after m, front ++ c' :: back ++ added⟩
  | finish {job : Nat} {c : Conduct} {m : Pool.Move} (hParty : s.parties[job]? = some c)
      (hOver : c.isOver = true) (hEnds : m.ended? = some job) (hAllows : s.pool.Allows m) :
      Step m ⟨s.clients, s.pool.after m, s.parties⟩
  | take {job : Nat} (hAllows : s.pool.Allows (.take job)) :
      Step (.take job) ⟨s.clients, s.pool.after (.take job), s.parties⟩
  | restore (hAllows : s.pool.Allows .restore) :
      Step .restore ⟨s.clients, s.pool.after .restore, s.parties⟩

/-- Any number of actions, one after another. -/
inductive Course (start : Workshop) : Pool.Record → Workshop → Prop where
  | start : Course start [] start
  | step {r : Pool.Record} {s s' : Workshop} {m : Pool.Move} (prior : Course start r s) (last : s.Step m s') :
      Course start (r ++ [m]) s'

/-- What holds in every course. The jobs that have been accepted have the numbers behind those of the clients; a
job with a claim is held by one party, which can act; and parties have only submitted jobs that were
accepted later than they. -/
structure Sound (r : Pool.Record) (s : Workshop) : Prop where
  tallies : s.pool.Tallies r
  clients_le : s.clients ≤ s.parties.length
  accepted : r.accepted = List.range' s.clients (s.parties.length - s.clients)
  held : ∀ job, s.pool.claimed.count job = (s.parties.filterMap Conduct.holding).count job
  acts : ∀ {k c}, s.parties[k]? = some c → c.holding ≠ none → s.Acts k
  later : ∀ {k c job}, s.parties[k]? = some c → job ∈ c.submitted →
    k < job ∧ s.clients ≤ job ∧ job < s.parties.length

variable {s s' : Workshop} {r : Pool.Record} {m : Pool.Move} {c c' d : Conduct}
  {front back added : List Conduct} {k job : Nat}

theorem filterMap_holding (front back : List Conduct) (c : Conduct) :
    (front ++ c :: back).filterMap Conduct.holding =
      front.filterMap Conduct.holding ++ (c.holding.toList ++ back.filterMap Conduct.holding) := by
  rw [List.filterMap_append, List.filterMap_cons]
  cases c.holding <;> rfl

theorem new_of_opening {threads : Nat} {clients : List Work}
    (hParty : (opening threads clients).parties[k]? = some c) : ∃ work ∈ clients, Conduct.new work = c :=
  List.mem_map.mp (List.mem_of_getElem? hParty)

theorem sound_opening (threads : Nat) (clients : List Work) : Sound [] (opening threads clients) where
  tallies := Pool.tallies_new threads
  clients_le := by simp [opening]
  accepted := by simp [opening, Pool.Record.accepted]
  held job := by
    have hNone : (clients.map Conduct.new).filterMap Conduct.holding = [] := by
      simp [List.filterMap_eq_nil_iff, Conduct.new]
    rw [opening, hNone]
    rfl
  acts hParty hHolding := by
    obtain ⟨work, -, rfl⟩ := new_of_opening hParty
    exact absurd rfl hHolding
  later hParty hMem := by
    obtain ⟨work, -, rfl⟩ := new_of_opening hParty
    simp [Conduct.new] at hMem

/-- An action brings a new job with the next number, or none. -/
theorem Does.cases (does : s.Does c m c' added) :
    (∃ job, added = [.new job] ∧ m.accepted? = some s.parties.length ∧
      c'.submitted = c.submitted ++ [s.parties.length]) ∨
    (added = [] ∧ m.accepted? = none ∧ c'.submitted = c.submitted) := by
  cases does with
  | claim => exact .inl ⟨_, rfl, rfl, rfl⟩
  | spawn => exact .inl ⟨_, rfl, rfl, rfl⟩
  | enqueue => exact .inr ⟨rfl, rfl, rfl⟩
  | resume => exact .inr ⟨rfl, rfl, rfl⟩
  | answer => exact .inr ⟨rfl, rfl, rfl⟩

/-- A party holds a job from its claim until it is queued. Its actions end no job. -/
theorem Does.holding (does : s.Does c m c' added) :
    c.holding = m.queued? ∧ c'.holding = m.claimed? ∧ m.ended? = none := by
  cases does <;> exact ⟨rfl, rfl, rfl⟩

theorem Acts.after (hActs : s.Acts k) (hAllows : s.pool.Allows m) (hStays : m.ended? ≠ some k)
    (parties : List Conduct) : Acts ⟨s.clients, s.pool.after m, parties⟩ k :=
  hActs.imp_right fun hRuns => Pool.Runs.after hRuns hAllows hStays

/-- Who is found among the parties after an action: the one that has acted, another one, or a new job. -/
theorem cases_of_getElem? (h : (front ++ c' :: back ++ added)[k]? = some d) :
    (k = front.length ∧ d = c') ∨ (front ++ c :: back)[k]? = some d ∨ d ∈ added := by
  by_cases hLast : k < (front ++ c' :: back).length
  · rw [List.getElem?_append_left hLast] at h
    rcases Nat.lt_trichotomy k front.length with hBefore | rfl | hAfter
    · rw [List.getElem?_append_left hBefore] at h ⊢
      exact .inr (.inl h)
    · exact .inl ⟨rfl, by simpa using h.symm⟩
    · obtain ⟨offset, rfl⟩ := Nat.exists_eq_add_of_lt hAfter
      rw [List.getElem?_append_right (by omega)] at h ⊢
      have hOffset : front.length + offset + 1 - front.length = offset + 1 := by omega
      rw [hOffset, List.getElem?_cons_succ] at h ⊢
      exact .inr (.inl h)
  · rw [List.getElem?_append_right (Nat.le_of_not_lt hLast)] at h
    exact .inr (.inr (List.mem_of_getElem? h))

/-- What is sound stays so when a party acts. -/
theorem Sound.act (h : Sound r s) (hParties : s.parties = front ++ c :: back)
    (hActs : s.Acts front.length) (does : s.Does c m c' added) (hAllows : s.pool.Allows m) :
    Sound (r ++ [m]) ⟨s.clients, s.pool.after m, front ++ c' :: back ++ added⟩ := by
  obtain ⟨hBefore, hHolding, hNoEnd⟩ := does.holding
  have hStays (k : Nat) : m.ended? ≠ some k := hNoEnd ▸ nofun
  have hParty : s.parties[front.length]? = some c := by simp [hParties]
  have hLength : (front ++ c' :: back ++ added).length = s.parties.length + added.length := by
    simp only [hParties, List.length_append, List.length_cons]
  have hFresh : ∀ d ∈ added, d.holding = none ∧ d.submitted = [] := by
    obtain ⟨job, rfl, -⟩ | ⟨rfl, -⟩ := does.cases
    · simp [Conduct.new]
    · simp
  constructor
  · exact h.tallies.after hAllows
  · exact Nat.le_trans h.clients_le (by rw [hLength]; omega)
  · have hClients := h.clients_le
    rw [Pool.Record.accepted_concat, h.accepted]
    simp only [hLength]
    obtain ⟨job, rfl, hAccepted, -⟩ | ⟨rfl, hNone, -⟩ := does.cases
    · have hMore : s.parties.length + 1 - s.clients = s.parties.length - s.clients + 1 := by omega
      have hNext : s.clients + 1 * (s.parties.length - s.clients) = s.parties.length := by omega
      rw [hAccepted, List.length_singleton, hMore, List.range'_concat, hNext]
      rfl
    · rw [hNone]
      simp
  · intro job
    have hClaimed := Pool.claimed_after hAllows job
    have hNone : added.filterMap Conduct.holding = [] :=
      List.filterMap_eq_nil_iff.mpr fun d hMem => (hFresh d hMem).1
    have hHeld := h.held job
    rw [hParties, filterMap_holding, hBefore] at hHeld
    rw [List.filterMap_append, hNone, filterMap_holding, hHolding]
    simp only [List.count_append, List.count_nil] at hHeld ⊢
    omega
  · intro k d hGet hHolds
    obtain ⟨rfl, -⟩ | hOther | hNew := cases_of_getElem? (c := c) hGet
    · exact hActs.after hAllows (hStays _) _
    · exact (h.acts (hParties ▸ hOther) hHolds).after hAllows (hStays _) _
    · exact absurd (hFresh d hNew).1 hHolds
  · intro k d job hGet hMem
    simp only [hLength]
    obtain ⟨rfl, rfl⟩ | hOther | hNew := cases_of_getElem? (c := c) hGet
    · have hOld (hMem : job ∈ c.submitted) :
          front.length < job ∧ s.clients ≤ job ∧ job < s.parties.length + added.length := by
        obtain ⟨hLater, hJob, hBound⟩ := h.later hParty hMem
        exact ⟨hLater, hJob, by omega⟩
      obtain ⟨_, rfl, -, hSubmitted⟩ | ⟨rfl, -, hSubmitted⟩ := does.cases
      · rw [hSubmitted, List.mem_append, List.mem_singleton] at hMem
        rcases hMem with hMem | rfl
        · exact hOld hMem
        · exact ⟨(List.getElem?_eq_some_iff.mp hParty).1, h.clients_le, Nat.lt_succ_self _⟩
      · exact hOld (hSubmitted ▸ hMem)
    · obtain ⟨hLater, hJob, hBound⟩ := h.later (hParties ▸ hOther) hMem
      exact ⟨hLater, hJob, by omega⟩
    · simp [(hFresh d hNew).2] at hMem

/-- What is sound stays so when a worker does something: it claims no job and queues none, and if it ends one,
this holds no other. -/
theorem Sound.work (h : Sound r s) (hAllows : s.pool.Allows m)
    (hOwn : m.accepted? = none ∧ m.claimed? = none ∧ m.queued? = none)
    (hEnds : ∀ job, m.ended? = some job → ∃ c, s.parties[job]? = some c ∧ c.isOver = true) :
    Sound (r ++ [m]) ⟨s.clients, s.pool.after m, s.parties⟩ where
  tallies := h.tallies.after hAllows
  clients_le := h.clients_le
  accepted := by rw [Pool.Record.accepted_concat, hOwn.1, h.accepted, Option.toList_none, List.append_nil]
  held job := by
    have hClaimed := Pool.claimed_after hAllows job
    rw [hOwn.2.1, hOwn.2.2] at hClaimed
    rw [← h.held job]
    exact hClaimed
  acts {k c} hParty hHolds := by
    refine (h.acts hParty hHolds).after hAllows (fun hEnd => ?_) _
    obtain ⟨d, hSame, hOver⟩ := hEnds k hEnd
    obtain rfl := Option.some.inj (hSame.symm.trans hParty)
    cases hHolding : d.holding with
    | none => exact hHolds hHolding
    | some job => simp [Conduct.isOver, hHolding] at hOver
  later := h.later

theorem Sound.step (h : Sound r s) (step : s.Step m s') : Sound (r ++ [m]) s' := by
  cases step with
  | act hParties hActs does hAllows => exact h.act hParties hActs does hAllows
  | @finish job c m hParty hOver hEnds hAllows =>
      refine h.work hAllows ?_ fun other hOther => ?_
      · cases m <;> simp at hEnds <;> exact ⟨rfl, rfl, rfl⟩
      · obtain rfl := Option.some.inj (hEnds.symm.trans hOther)
        exact ⟨c, hParty, hOver⟩
  | take hAllows => exact h.work hAllows ⟨rfl, rfl, rfl⟩ nofun
  | restore hAllows => exact h.work hAllows ⟨rfl, rfl, rfl⟩ nofun

theorem Course.sound {start : Workshop} (course : Course start r s) (h : Sound [] start) : Sound r s := by
  induction course with
  | start => exact h
  | step prior last ih => exact ih.step last

end Workshop

end SolutionFlow
