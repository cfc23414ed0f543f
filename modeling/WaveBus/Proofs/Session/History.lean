import WaveBus.Session

/-! # Histories of a session

A history is a session with all that its search has tried and returned so far. It
is extended by operations in any order. A call of `next` whose patience runs out
leaves the search between two candidates; whatever is done then, another call
goes on from there. So a history also covers what happens while a call is under way.

What holds of a search and its trials when it starts, and is kept by one more trial
and by any limit, holds after every history.
-/

namespace WaveBus

/-- What can be done to a session. -/
inductive Operation where
  | next (patience : Nat)
  | setLimit (limit : Nat)
  | attach (signal : Nat)
  | stop (signal : Nat)
  deriving Repr, DecidableEq

/-- The improvement that a call of `next` returns, if it returns one. -/
def Search.Reply.improvement? : Search.Reply → Option Improvement
  | .improved improvement => some improvement
  | .halted | .undecided => none

/-- A session with its trials and the improvements it has returned, both in order. -/
structure History where
  session : Session
  tried : List Attempt := []
  found : List Improvement := []

theorem Attempt.accepted_iff (trial : Attempt) :
    trial.accepted = true ↔ trial.score ≤ trial.before :=
  decide_eq_true_iff

theorem Search.score_attempt (search : Search) :
    search.attempt.1.score = score search.wave search.attempt.1.candidate search.table := by
  simp only [Search.attempt]

theorem Search.before_attempt (search : Search) :
    search.attempt.1.before = search.best.score := by
  simp only [Search.attempt]

theorem Search.best_attempt (search : Search) :
    search.attempt.2.best =
      if search.attempt.1.accepted then ⟨search.attempt.1.candidate, search.attempt.1.score⟩
      else search.best := by
  simp only [Search.attempt]

@[simp] theorem Session.search_attach (session : Session) (signal : Nat) :
    (session.attach signal).search = session.search := by
  unfold Session.attach
  split <;> rfl

namespace History

/-- Nothing has been asked of the search yet. -/
def start (wave : Wave) (table : Table) (initial : Params) (stream : Nat → UInt32) : History :=
  { session := .start (.start wave table initial { stream }) }

/-- The search as it stands. -/
def search (history : History) : Search := history.session.search

/-- Performs one operation. Only `next` tries candidates. -/
def perform (history : History) : Operation → History
  | .next patience =>
      let turn := history.search.next history.session.isStopped patience
      let (reply, session) := history.session.next patience
      { session
        tried := history.tried ++ turn.attempts
        found := history.found ++ reply.improvement?.toList }
  | .setLimit limit => { history with session := history.session.setLimit limit }
  | .attach signal => { history with session := history.session.attach signal }
  | .stop signal => { history with session := history.session.stop signal }

/-- Performs operations in turn. -/
def performAll (history : History) (operations : List Operation) : History :=
  operations.foldl perform history

/-- A property of a search and its trials that trials and limits keep. -/
structure Kept (P : Search → List Attempt → Prop) : Prop where
  attempt : ∀ {search tried}, P search tried → P search.attempt.2 (tried ++ [search.attempt.1])
  limit : ∀ {search tried} limit, P search tried → P { search with limit := some limit } tried

theorem Kept.next {P : Search → List Attempt → Prop} (kept : Kept P) (stopped : Bool)
    (patience : Nat) {search : Search} {tried : List Attempt} (h : P search tried) :
    P (search.next stopped patience).search
      (tried ++ (search.next stopped patience).attempts) := by
  induction patience generalizing search tried with
  | zero => simpa [Search.next] using h
  | succ patience ih =>
      rw [Search.next]
      split
      · simpa using h
      · dsimp only
        split
        · exact kept.attempt h
        · have after := ih (kept.attempt h)
          rwa [List.append_assoc] at after

theorem Kept.perform {P : Search → List Attempt → Prop} (kept : Kept P) (operation : Operation)
    {history : History} (h : P history.search history.tried) :
    P (history.perform operation).search (history.perform operation).tried := by
  cases operation with
  | next patience => exact kept.next _ patience h
  | setLimit limit => exact kept.limit limit h
  | attach signal => simpa only [History.perform, search, Session.search_attach] using h
  | stop signal => exact h

theorem Kept.performAll {P : Search → List Attempt → Prop} (kept : Kept P)
    (operations : List Operation) {history : History} (h : P history.search history.tried) :
    P (history.performAll operations).search (history.performAll operations).tried := by
  induction operations generalizing history with
  | nil => exact h
  | cons operation rest ih => exact ih (kept.perform operation h)

end History

/-- Of the trials of a call only the last can be accepted, and it is what the call returns. -/
theorem Search.next_accepted (stopped : Bool) (patience : Nat) (search : Search) :
    (search.next stopped patience).reply.improvement?.toList =
      ((search.next stopped patience).attempts.filter Attempt.accepted).map
        Attempt.improvement := by
  induction patience generalizing search with
  | zero => rfl
  | succ patience ih =>
      rw [Search.next]
      split
      · rfl
      · dsimp only
        split
        · next accepted => simp [accepted, Search.Reply.improvement?]
        · next rejected => simpa [rejected] using ih search.attempt.2

namespace History

/-- What has been returned is what has been accepted: nothing is lost and nothing comes twice. -/
theorem found_perform (operation : Operation) {history : History}
    (h : history.found = (history.tried.filter Attempt.accepted).map Attempt.improvement) :
    (history.perform operation).found =
      ((history.perform operation).tried.filter Attempt.accepted).map Attempt.improvement := by
  cases operation with
  | next patience =>
      have returned := history.search.next_accepted history.session.isStopped patience
      simp only [perform, Session.next, List.filter_append, List.map_append]
      rw [h, ← returned]
      rfl
  | setLimit | attach | stop => exact h

theorem found_performAll (operations : List Operation) {history : History}
    (h : history.found = (history.tried.filter Attempt.accepted).map Attempt.improvement) :
    (history.performAll operations).found =
      ((history.performAll operations).tried.filter Attempt.accepted).map
        Attempt.improvement := by
  induction operations generalizing history with
  | nil => exact h
  | cons operation rest ih => exact ih (found_perform operation h)

theorem performAll_append (history : History) (first second : List Operation) :
    history.performAll (first ++ second) = (history.performAll first).performAll second :=
  List.foldl_append

/-- Asking for `count` improvements is calling `next` until it returns none, at most `count` times. -/
theorem exists_performAll_take (patience count : Nat) (history : History) :
    ∃ operations, (history.performAll operations).session =
        (history.session.take patience count).2 ∧
      (history.performAll operations).found =
        history.found ++ (history.session.take patience count).1 := by
  induction count generalizing history with
  | zero => exact ⟨[], rfl, by simp [Session.take, performAll]⟩
  | succ count ih =>
      rcases called : history.session.next patience with ⟨reply, session⟩
      have found : (history.perform (.next patience)).found =
          history.found ++ reply.improvement?.toList := by
        simp only [perform, called]
      have after : (history.perform (.next patience)).session = session := by
        simp only [perform, called]
      cases reply with
      | improved improvement =>
          obtain ⟨operations, hs, hf⟩ := ih (history.perform (.next patience))
          refine ⟨.next patience :: operations, ?_, ?_⟩
          · simpa only [performAll, List.foldl_cons, Session.take, called, after] using hs
          · rw [found, after] at hf
            simpa only [performAll, List.foldl_cons, Session.take, called,
              Search.Reply.improvement?, Option.toList_some, List.append_assoc,
              List.singleton_append] using hf
      | halted | undecided =>
          refine ⟨[.next patience], ?_, ?_⟩
          · rw [Session.take, called]
            exact after
          · rw [Session.take, called]
            exact found

/-- Whatever is asked of a session, a history has the same session and the same improvements. -/
theorem exists_performAll_serveAll (patience : Nat) (requests : List Request)
    (history : History) :
    ∃ operations, (history.performAll operations).session =
        (history.session.serveAll patience requests).2 ∧
      (history.performAll operations).found =
        history.found ++ (history.session.serveAll patience requests).1 := by
  induction requests generalizing history with
  | nil => exact ⟨[], rfl, by simp [Session.serveAll, performAll]⟩
  | cons request rest ih =>
      have served : ∃ operations, (history.performAll operations).session =
          (history.session.serve patience request).2 ∧
          (history.performAll operations).found =
            history.found ++ (history.session.serve patience request).1 := by
        cases request with
        | take count => exact exists_performAll_take patience count history
        | setLimit limit => exact ⟨[.setLimit limit], rfl, (List.append_nil _).symm⟩
        | attach signal => exact ⟨[.attach signal], rfl, (List.append_nil _).symm⟩
        | stop signal => exact ⟨[.stop signal], rfl, (List.append_nil _).symm⟩
      obtain ⟨first, hs, hf⟩ := served
      obtain ⟨second, hs', hf'⟩ := ih (history.performAll first)
      refine ⟨first ++ second, ?_, ?_⟩
      · rw [performAll_append, hs', hs]
        rfl
      · rw [performAll_append, hf', hf, hs, List.append_assoc]
        rfl

end History

end WaveBus
