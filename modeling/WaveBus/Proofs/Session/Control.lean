import WaveBus.Proofs.Session.Gate

/-! # What controls a search

A limit and one attached signal control a search. While one of them closes the session
nothing happens, whatever is asked; when it opens again the search goes on from where it
was left. Other signals have no say, and no operation lowers a signal.
-/

namespace WaveBus

/-- The operation leaves this limit and this signal in force. -/
def Operation.Keeps (limit : Option Nat) (attached : Nat) : Operation → Prop
  | .next _ | .stop _ => True
  | .setLimit other => limit = some other
  | .attach signal => signal = attached

def Operation.SetsNoLimit : Operation → Prop
  | .setLimit _ => False
  | .next _ | .attach _ | .stop _ => True

/-- The operation neither attaches nor raises a signal. -/
def Operation.LeavesSignals : Operation → Prop
  | .next _ | .setLimit _ => True
  | .attach _ | .stop _ => False

namespace History

/-- The same search with the same trials and results; the signals may differ. -/
structure Abreast (history other : History) : Prop where
  search : history.search = other.search
  tried : history.tried = other.tried
  found : history.found = other.found
  events : history.session.events = other.session.events

namespace Abreast

variable {history other : History}

theorem refl (history : History) : history.Abreast history := ⟨rfl, rfl, rfl, rfl⟩

theorem symm (h : history.Abreast other) : other.Abreast history :=
  ⟨h.search.symm, h.tried.symm, h.found.symm, h.events.symm⟩

theorem trans {third : History} (h : history.Abreast other) (h' : other.Abreast third) :
    history.Abreast third :=
  ⟨h.search.trans h'.search, h.tried.trans h'.tried, h.found.trans h'.found,
    h.events.trans h'.events⟩

/-- Of all signals a call asks only the attached one. -/
theorem next (h : history.Abreast other)
    (stopped : history.session.isStopped = other.session.isStopped) (patience : Nat) :
    (history.perform (.next patience)).Abreast (other.perform (.next patience)) := by
  have search : history.session.search = other.session.search := h.search
  refine ⟨?_, ?_, ?_, ?_⟩
  all_goals simp only [perform, Session.next, History.search, search, stopped, h.tried, h.found,
    h.events]

theorem setLimit (h : history.Abreast other) (limit : Nat) :
    (history.perform (.setLimit limit)).Abreast (other.perform (.setLimit limit)) :=
  ⟨congrArg (fun search : Search => { search with limit := some limit }) h.search, h.tried,
    h.found, h.events⟩

theorem attach (history : History) (signal : Nat) :
    (history.perform (.attach signal)).Abreast history :=
  ⟨Session.search_attach _ _, rfl, rfl, Session.events_attach _ _⟩

theorem stop (history : History) (signal : Nat) :
    (history.perform (.stop signal)).Abreast history :=
  ⟨rfl, rfl, rfl, rfl⟩

/-- Histories that are both stopped or both not stay abreast until a signal changes. -/
theorem performAll (h : history.Abreast other)
    (stopped : history.session.isStopped = other.session.isStopped) {operations : List Operation}
    (leaves : ∀ operation ∈ operations, operation.LeavesSignals) :
    (history.performAll operations).Abreast (other.performAll operations) := by
  induction operations generalizing history other with
  | nil => exact h
  | cons operation rest ih =>
      have further := fun operation inside => leaves operation (List.mem_cons_of_mem _ inside)
      cases operation with
      | next patience => exact ih (h.next stopped patience) stopped further
      | setLimit limit => exact ih (h.setLimit limit) stopped further
      | attach signal | stop signal => exact (leaves _ List.mem_cons_self).elim

end Abreast

theorem raised_perform {history : History} {signal : Nat}
    (h : history.session.signals[signal]? = some true) (operation : Operation) :
    (history.perform operation).session.signals[signal]? = some true := by
  cases operation with
  | next patience => exact h
  | setLimit limit => exact h
  | attach other =>
      obtain ⟨inside, -⟩ := List.getElem?_eq_some_iff.1 h
      simp only [perform, Session.signals_attach]
      split
      · exact h
      · rwa [List.getElem?_append_left inside]
  | stop other => exact Session.stop_keeps other h

theorem raised_performAll {history : History} {signal : Nat}
    (h : history.session.signals[signal]? = some true) (operations : List Operation) :
    (history.performAll operations).session.signals[signal]? = some true := by
  induction operations generalizing history with
  | nil => exact h
  | cons operation rest ih => exact ih (raised_perform h operation)

theorem perform_next_of_closed {history : History} (h : history.session.Closed)
    (patience : Nat) : history.perform (.next patience) = history := by
  cases patience with
  | zero => simp [perform, Session.next, Search.next, Search.Reply.improvement?]
  | succ patience =>
      have closed := (Session.closed_iff _).1 h
      simp [perform, search, Session.next_of_closed h, Search.next_closed closed,
        Search.Reply.improvement?]

theorem perform_setLimit_of_eq {history : History} {limit : Nat}
    (h : history.search.limit = some limit) : history.perform (.setLimit limit) = history := by
  simp only [perform, Session.setLimit, ← h]
  rfl

theorem perform_attach_attached (history : History) :
    history.perform (.attach history.session.attached) = history := by
  simp only [perform, Session.attach, dif_pos history.session.attached_lt]

theorem perform_stop_of_length_le {history : History} {signal : Nat}
    (h : history.session.signals.length ≤ signal) : history.perform (.stop signal) = history := by
  simp only [perform, Session.stop, List.set_eq_of_length_le h]

theorem closed_perform {history : History} (h : history.session.Closed) {operation : Operation}
    (keeps : operation.Keeps history.search.limit history.session.attached) :
    (history.perform operation).Abreast history ∧
      (history.perform operation).session.attached = history.session.attached ∧
      (history.perform operation).session.Closed := by
  cases operation with
  | next patience =>
      rw [perform_next_of_closed h]
      exact ⟨.refl _, rfl, h⟩
  | setLimit limit =>
      rw [perform_setLimit_of_eq keeps]
      exact ⟨.refl _, rfl, h⟩
  | attach signal =>
      obtain rfl : signal = history.session.attached := keeps
      rw [perform_attach_attached]
      exact ⟨.refl _, rfl, h⟩
  | stop signal =>
      refine ⟨.stop history signal, rfl, h.of_search_eq rfl ?_⟩
      intro stopped
      have raised := history.session.getElem?_attached
      rw [stopped] at raised
      have after := (history.session.stop signal).getElem?_attached
      have kept := Session.stop_keeps signal raised
      exact Option.some.inj (after.symm.trans kept)

theorem closed_performAll {history : History} (h : history.session.Closed)
    {operations : List Operation}
    (keeps : ∀ operation ∈ operations,
      operation.Keeps history.search.limit history.session.attached) :
    (history.performAll operations).Abreast history ∧
      (history.performAll operations).session.Closed := by
  induction operations generalizing history with
  | nil => exact ⟨.refl _, h⟩
  | cons operation rest ih =>
      obtain ⟨abreast, attached, closed⟩ := closed_perform h (keeps _ List.mem_cons_self)
      have further : ∀ operation' ∈ rest, operation'.Keeps
          (history.perform operation).search.limit (history.perform operation).session.attached := by
        intro other inside
        rw [abreast.search, attached]
        exact keeps other (List.mem_cons_of_mem _ inside)
      obtain ⟨after, still⟩ := ih closed further
      exact ⟨after.trans abreast, still⟩

theorem iterations_le_performAll (history : History) (operations : List Operation) :
    history.search.iterations ≤ (history.performAll operations).search.iterations := by
  have kept : Kept fun search _ => history.search.iterations ≤ search.iterations :=
    ⟨Nat.le_succ_of_le, fun _ => id⟩
  exact kept.performAll operations (Nat.le_refl _)

theorem performAll_of_limit {history : History} {limit bound : Nat}
    (limited : history.search.limit = some limit) (within : limit ≤ bound)
    (below : history.search.iterations ≤ bound) {operations : List Operation}
    (unlimiting : ∀ operation ∈ operations, operation.SetsNoLimit) :
    (history.performAll operations).search.limit = some limit ∧
      (history.performAll operations).search.iterations ≤ bound := by
  induction operations generalizing history with
  | nil => exact ⟨limited, below⟩
  | cons operation rest ih =>
      have further := fun operation inside => unlimiting operation (List.mem_cons_of_mem _ inside)
      cases operation with
      | next patience =>
          refine ih ?_ ?_ further
          · exact (Search.limit_next _ _ _).trans limited
          · exact Search.iterations_next_le limited within below _ _
      | setLimit limit => exact (unlimiting _ List.mem_cons_self).elim
      | attach signal =>
          have same := (Abreast.attach history signal).search
          exact ih (same ▸ limited) (same ▸ below) further
      | stop signal => exact ih limited below further

theorem performAll_setLimit (history : History) (limit : Nat) {operations : List Operation}
    (unlimiting : ∀ operation ∈ operations, operation.SetsNoLimit) :
    ((history.perform (.setLimit limit)).performAll operations).search.limit = some limit ∧
      ((history.perform (.setLimit limit)).performAll operations).search.iterations ≤
        max limit history.search.iterations := by
  have limited : (history.perform (.setLimit limit)).search.limit = some limit := rfl
  exact performAll_of_limit limited (Nat.le_max_left ..) (Nat.le_max_right ..) unlimiting

/-- Histories that differ in one signal, which is raised in the first and attached in none. -/
structure Apart (signal : Nat) (history other : History) : Prop
    extends History.Abreast history other where
  attached : history.session.attached = other.session.attached
  unattached : other.session.attached ≠ signal
  known : signal < other.session.signals.length
  signals : history.session.signals = other.session.signals.set signal true

namespace Apart

variable {signal : Nat} {history other : History}

theorem isStopped (h : Apart signal history other) :
    history.session.isStopped = other.session.isStopped := by
  have here := history.session.getElem?_attached
  rw [h.signals, h.attached, List.getElem?_set_ne h.unattached.symm,
    other.session.getElem?_attached] at here
  exact (Option.some.inj here).symm

theorem perform (h : Apart signal history other) {operation : Operation}
    (elsewhere : operation ≠ .attach signal) :
    Apart signal (history.perform operation) (other.perform operation) := by
  cases operation with
  | next patience =>
      exact ⟨h.toAbreast.next h.isStopped patience, h.attached, h.unattached, h.known, h.signals⟩
  | setLimit limit =>
      exact ⟨h.toAbreast.setLimit limit, h.attached, h.unattached, h.known, h.signals⟩
  | attach second =>
      have abreast := ((Abreast.attach history second).trans h.toAbreast).trans
        (Abreast.attach other second).symm
      have second_ne : second ≠ signal := fun e => elsewhere (congrArg Operation.attach e)
      have length : history.session.signals.length = other.session.signals.length := by
        rw [h.signals, List.length_set]
      have known := h.known
      refine ⟨abreast, ?_, ?_, ?_, ?_⟩
      all_goals simp only [History.perform, Session.attached_attach, Session.signals_attach, length]
      · split
        · exact second_ne
        · omega
      · split
        · exact known
        · rw [List.length_append]
          omega
      · split
        · exact h.signals
        · rw [h.signals, List.set_append_left _ _ known]
  | stop second =>
      have abreast := ((Abreast.stop history second).trans h.toAbreast).trans
        (Abreast.stop other second).symm
      refine ⟨abreast, h.attached, h.unattached, ?_, ?_⟩
      all_goals simp only [History.perform, Session.stop]
      · rw [List.length_set]
        exact h.known
      · rw [h.signals]
        by_cases same : signal = second
        · rw [same]
        · rw [List.set_comm _ _ same]

theorem performAll (h : Apart signal history other) {operations : List Operation}
    (elsewhere : .attach signal ∉ operations) :
    Apart signal (history.performAll operations) (other.performAll operations) := by
  induction operations generalizing history other with
  | nil => exact h
  | cons operation rest ih =>
      rw [List.mem_cons, not_or] at elsewhere
      exact ih (h.perform (Ne.symm elsewhere.1)) elsewhere.2

end Apart

theorem abreast_stop_performAll (history : History) {signal : Nat}
    (unattached : signal ≠ history.session.attached) {operations : List Operation}
    (elsewhere : .attach signal ∉ operations) :
    ((history.perform (.stop signal)).performAll operations).Abreast
      (history.performAll operations) := by
  by_cases known : signal < history.session.signals.length
  · have apart : Apart signal (history.perform (.stop signal)) history :=
      ⟨Abreast.stop history signal, rfl, unattached.symm, known, rfl⟩
    exact (apart.performAll elsewhere).toAbreast
  · rw [perform_stop_of_length_le (Nat.le_of_not_lt known)]
    exact .refl _

/-- How the gate of a search works in a history, and what it means for what comes after. -/
structure Gated (history : History) : Prop where
  /-- Held back, a call returns nothing and changes nothing, now and as long as the same
      limit and the same signal are in force. -/
  closed : history.session.Closed → ∀ operations : List Operation,
    (∀ operation ∈ operations,
      operation.Keeps history.search.limit history.session.attached) →
    (history.performAll operations).Abreast history ∧
      ∀ result after, (history.performAll operations).session.Returns result after ↔
        result = none ∧ after = (history.performAll operations).session
  /-- Otherwise the first thing a call does is to try a candidate. -/
  opened : ¬ history.session.Closed → ∀ patience,
    history.tried ++ [history.search.attempt.1] <+: (history.perform (.next (patience + 1))).tried
  returns : ∀ limit, history.search.limit = some limit →
    ∃ result after, history.session.Returns result after
  bounded : ∀ limit (operations : List Operation),
    (∀ operation ∈ operations, operation.SetsNoLimit) →
    ((history.perform (.setLimit limit)).performAll operations).search.iterations ≤
      max limit history.search.iterations
  /-- Below a limit of 64 bits a count of 64 bits does not wrap. -/
  fits : ∀ limit (operations : List Operation),
    (∀ operation ∈ operations, operation.SetsNoLimit) →
    limit < UInt64.size → history.search.iterations < UInt64.size →
    ((history.perform (.setLimit limit)).performAll operations).search.iterations < UInt64.size
  drained : ∀ limit (operations : List Operation),
    (∀ operation ∈ operations, operation.SetsNoLimit) →
    let session := ((history.perform (.setLimit limit)).performAll operations).session
    session.isStopped = false →
    (∃ found after, session.Drains found after) ∧
      ∀ found after, session.Drains found after →
        after.search.iterations = max limit history.search.iterations
  /-- A signal that is not attached has no say as long as it stays so. -/
  unattached : ∀ (signal : Nat) (operations : List Operation),
    signal ≠ history.session.attached → .attach signal ∉ operations →
    ((history.perform (.stop signal)).performAll operations).Abreast
      (history.performAll operations)
  /-- Behind a stop a signal that is not raised lets the search go on as if nothing had
      stopped it. -/
  resumed : ∀ (signal : Nat) (stopped later : List Operation),
    history.session.isStopped = false →
    (∀ operation ∈ stopped, operation.Keeps history.search.limit history.session.attached) →
    let halted := (history.perform (.stop history.session.attached)).performAll stopped
    halted.session.signals[signal]? ≠ some true →
    (∀ operation ∈ later, operation.LeavesSignals) →
    ((halted.perform (.attach signal)).performAll later).Abreast (history.performAll later)
  raised : ∀ (signal : Nat) (operations : List Operation),
    history.session.signals[signal]? = some true →
    (history.performAll operations).session.signals[signal]? = some true

theorem gated (history : History) : history.Gated where
  closed := by
    intro closed operations keeps
    obtain ⟨abreast, still⟩ := closed_performAll closed keeps
    exact ⟨abreast, Session.returns_of_closed still⟩
  opened := by
    intro opened patience
    rw [Session.closed_iff, Bool.not_eq_false] at opened
    exact (List.prefix_append_right_inj _).2 (Search.attempts_next_open opened patience)
  returns := fun _ limited => Session.exists_returns limited
  bounded := fun limit _ unlimiting => (performAll_setLimit history limit unlimiting).2
  fits := fun limit _ unlimiting small counted =>
    Nat.lt_of_le_of_lt (performAll_setLimit history limit unlimiting).2
      (Nat.max_lt.2 ⟨small, counted⟩)
  drained := by
    intro limit operations unlimiting session running
    obtain ⟨limited, within⟩ := performAll_setLimit history limit unlimiting
    have grown := iterations_le_performAll (history.perform (.setLimit limit)) operations
    refine ⟨Session.exists_drains limited running, ?_⟩
    intro found after drains
    have before : (history.perform (.setLimit limit)).search.iterations =
        history.search.iterations := rfl
    have reached := drains.iterations limited running
    have counted : session.search.iterations ≤ max limit history.search.iterations := within
    have kept : history.search.iterations ≤ session.search.iterations := grown
    omega
  unattached := fun _ _ unattached elsewhere =>
    abreast_stop_performAll history unattached elsewhere
  resumed := by
    intro signal stopped later running keeps halted lowered leaves
    have closed : (history.perform (.stop history.session.attached)).session.Closed :=
      .inl (Session.isStopped_stop_attached history.session)
    have abreast := ((Abreast.attach halted signal).trans (closed_performAll closed keeps).1).trans
      (Abreast.stop history history.session.attached)
    refine abreast.performAll ?_ leaves
    rw [running]
    exact Session.isStopped_attach lowered
  raised := fun _ operations raised => raised_performAll raised operations

end History

end WaveBus
