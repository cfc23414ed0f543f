import WaveBus.Proofs.Search.Next
import WaveBus.Proofs.Session.Signals

/-! # The gate of a session

A session is closed by its attached signal and by its limit, and by nothing else. A call
on a closed session returns nothing and leaves the session as it is. Under a limit every
call returns, and a session that is not stopped can be drained, down to its limit.
-/

namespace WaveBus

namespace Session

/-- The attached signal is raised, or as many candidates were tried as the limit allows. -/
def Closed (session : Session) : Prop :=
  session.isStopped = true ∨
    ∃ limit, session.search.limit = some limit ∧ limit ≤ session.search.iterations

theorem closed_iff (session : Session) :
    session.Closed ↔ session.search.isOpen session.isStopped = false := by
  rw [Closed, ← Search.isSpent_iff, Search.isOpen, Bool.not_eq_false', Bool.or_eq_true]

/-- A call of `next` that comes to an end, with patience enough. -/
inductive Returns (session : Session) : Option Improvement → Session → Prop
  | halted {patience : Nat} {after : Session} (h : session.next patience = (.halted, after)) :
      Returns session none after
  | improved {patience : Nat} {improvement : Improvement} {after : Session}
      (h : session.next patience = (.improved improvement, after)) :
      Returns session (some improvement) after

/-- Calls of `next` until one of them returns nothing. -/
inductive Drains : Session → List Improvement → Session → Prop
  | halted {session after : Session} (last : session.Returns none after) :
      Drains session [] after
  | improved {session between after : Session} {improvement : Improvement}
      {found : List Improvement} (first : session.Returns (some improvement) between)
      (rest : Drains between found after) : Drains session (improvement :: found) after

theorem next_of_le {session : Session} {patience more : Nat}
    (decided : (session.next patience).1 ≠ .undecided) (le : patience ≤ more) :
    session.next more = session.next patience := by
  simp only [next, Search.next_of_le decided le]

theorem Returns.exists_decided {session after : Session} {result : Option Improvement}
    (h : session.Returns result after) :
    ∃ patience reply, session.next patience = (reply, after) ∧ reply ≠ .undecided ∧
      reply.improvement? = result := by
  cases h with
  | halted h => exact ⟨_, _, h, nofun, rfl⟩
  | improved h => exact ⟨_, _, h, nofun, rfl⟩

theorem Returns.unique {session after later : Session} {result other : Option Improvement}
    (h : session.Returns result after) (h' : session.Returns other later) :
    result = other ∧ after = later := by
  obtain ⟨patience, reply, called, decided, rfl⟩ := h.exists_decided
  obtain ⟨patience', reply', called', decided', rfl⟩ := h'.exists_decided
  have first : session.next (max patience patience') = session.next patience :=
    next_of_le (by rw [called]; exact decided) (Nat.le_max_left ..)
  have second : session.next (max patience patience') = session.next patience' :=
    next_of_le (by rw [called']; exact decided') (Nat.le_max_right ..)
  rw [first, called, called'] at second
  cases second
  exact ⟨rfl, rfl⟩

theorem next_of_closed {session : Session} (h : session.Closed) (patience : Nat) :
    session.next (patience + 1) = (.halted, session) := by
  rw [closed_iff] at h
  simp only [next, Search.next_closed h, List.map_nil, List.append_nil]

theorem returns_of_closed {session : Session} (h : session.Closed) (result : Option Improvement)
    (after : Session) : session.Returns result after ↔ result = none ∧ after = session := by
  have halted : session.Returns none session := .halted (next_of_closed h 0)
  constructor
  · intro returned
    exact returned.unique halted
  · rintro ⟨rfl, rfl⟩
    exact halted

theorem exists_returns {session : Session} {limit : Nat}
    (limited : session.search.limit = some limit) :
    ∃ result after, session.Returns result after := by
  have decided : (session.search.next session.isStopped
      (limit - session.search.iterations + 1)).reply ≠ .undecided :=
    Search.next_decided limited (Nat.lt_succ_self _)
  rcases called : session.next (limit - session.search.iterations + 1) with ⟨reply, after⟩
  cases reply with
  | improved improvement => exact ⟨some improvement, after, .improved called⟩
  | halted => exact ⟨none, after, .halted called⟩
  | undecided => exact absurd (congrArg Prod.fst called) decided

namespace Returns

variable {session after : Session} {result : Option Improvement}

/-- A call changes the search and the events, and nothing else. -/
theorem exists_next (h : session.Returns result after) :
    ∃ patience, after.search = (session.search.next session.isStopped patience).search ∧
      after.isStopped = session.isStopped := by
  obtain ⟨patience, reply, called, -⟩ := h.exists_decided
  cases called
  exact ⟨patience, rfl, isStopped_congr rfl rfl⟩

theorem isStopped (h : session.Returns result after) : after.isStopped = session.isStopped := by
  obtain ⟨patience, -, same⟩ := h.exists_next
  exact same

theorem limit (h : session.Returns result after) :
    after.search.limit = session.search.limit := by
  obtain ⟨patience, search, -⟩ := h.exists_next
  rw [search, Search.limit_next]

theorem iterations_le (h : session.Returns result after) :
    session.search.iterations ≤ after.search.iterations := by
  obtain ⟨patience, search, -⟩ := h.exists_next
  rw [search]
  exact Search.iterations_le_next _ _ _

theorem le_of_limit (h : session.Returns result after) {limit bound : Nat}
    (limited : session.search.limit = some limit) (within : limit ≤ bound)
    (below : session.search.iterations ≤ bound) : after.search.iterations ≤ bound := by
  obtain ⟨patience, search, -⟩ := h.exists_next
  rw [search]
  exact Search.iterations_next_le limited within below _ _

/-- What is not stopped returns nothing only at its limit. -/
theorem limit_le (h : session.Returns none after) (running : session.isStopped = false)
    {limit : Nat} (limited : session.search.limit = some limit) :
    limit ≤ after.search.iterations := by
  have same := h.limit
  cases h with
  | halted called =>
      have halted := congrArg Prod.fst called
      have search := congrArg (fun outcome => outcome.2.search) called
      simp only [next, running] at halted search
      have spent := Search.isSpent_of_halted halted
      rw [search, Search.isSpent_iff, same, limited] at spent
      obtain ⟨reached, equal, le⟩ := spent
      cases equal
      exact le

theorem iterations_lt (h : session.Returns result after) (opened : ¬ session.Closed) :
    session.search.iterations < after.search.iterations := by
  rw [closed_iff, Bool.not_eq_false] at opened
  obtain ⟨patience, reply, called, decided, -⟩ := h.exists_decided
  cases patience with
  | zero =>
      cases called
      exact absurd rfl decided
  | succ patience =>
      cases called
      exact Search.iterations_lt_next opened patience

theorem opened {improvement : Improvement} (h : session.Returns (some improvement) after) :
    ¬ session.Closed := by
  intro closed
  cases ((returns_of_closed closed _ _).1 h).1

end Returns

theorem lt_limit {session : Session} (opened : ¬ session.Closed) {limit : Nat}
    (limited : session.search.limit = some limit) : session.search.iterations < limit := by
  rw [closed_iff, Bool.not_eq_false] at opened
  exact Search.lt_of_isOpen limited opened

theorem exists_drains {session : Session} {limit : Nat}
    (limited : session.search.limit = some limit) (running : session.isStopped = false) :
    ∃ found after, session.Drains found after := by
  obtain ⟨result, between, returned⟩ := exists_returns limited
  cases result with
  | none => exact ⟨[], between, .halted returned⟩
  | some improvement =>
      -- Only an open session improves, so fewer candidates are left below the limit.
      have left := lt_limit returned.opened limited
      have fewer := returned.iterations_lt returned.opened
      obtain ⟨found, after, rest⟩ :=
        exists_drains (returned.limit.trans limited) (returned.isStopped.trans running)
      exact ⟨improvement :: found, after, .improved returned rest⟩
termination_by limit - session.search.iterations

theorem Drains.iterations {session after : Session} {found : List Improvement}
    (h : session.Drains found after) {limit : Nat}
    (limited : session.search.limit = some limit) (running : session.isStopped = false) :
    after.search.iterations = max limit session.search.iterations := by
  induction h with
  | halted last =>
      apply Nat.le_antisymm
      · exact last.le_of_limit limited (Nat.le_max_left ..) (Nat.le_max_right ..)
      · exact Nat.max_le.2 ⟨last.limit_le running limited, last.iterations_le⟩
  | improved first rest ih =>
      have left := lt_limit first.opened limited
      have within := first.le_of_limit limited (Nat.le_refl limit) (Nat.le_of_lt left)
      rw [ih (first.limit.trans limited) (first.isStopped.trans running),
        Nat.max_eq_left within, Nat.max_eq_left (Nat.le_of_lt left)]

theorem Closed.of_search_eq {session other : Session} (h : session.Closed)
    (search : other.search = session.search)
    (stopped : session.isStopped = true → other.isStopped = true) : other.Closed := by
  rw [Closed, search]
  exact h.imp_left stopped

end Session

end WaveBus
