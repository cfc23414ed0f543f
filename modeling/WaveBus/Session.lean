import WaveBus.Search

/-! # Searches under stop signals

A session is a search with the signals that may stop it. Signals are numbered as
they are made; one of them is attached to the search and is asked before every
candidate. A raised signal stays raised. The session keeps the events of its
search: the start first, then one for every candidate.
-/

namespace WaveBus

/-- A search, its signals and what it has reported. -/
structure Session where
  search : Search
  /-- For every signal whether it is raised. -/
  signals : List Bool := [false]
  /-- The number of the signal that the search obeys. -/
  attached : Nat := 0
  attached_lt : attached < signals.length := by decide
  /-- What the search has reported, in order. -/
  events : List Event

namespace Session

/-- The session of a search that has not begun. Its only signal is not raised. -/
def start (search : Search) : Session :=
  { search, events := [search.startEvent] }

def isStopped (session : Session) : Bool :=
  session.signals.get ⟨session.attached, session.attached_lt⟩

def next (patience : Nat) (session : Session) : Search.Reply × Session :=
  let turn := session.search.next session.isStopped patience
  (turn.reply,
    { session with
      search := turn.search
      events := session.events ++ turn.attempts.map (Attempt.event session.search.wave) })

/-- Asks for the next `count` improvements. There are fewer if the search is halted. -/
def take (patience : Nat) : (count : Nat) → Session → List Improvement × Session
  | 0, session => ([], session)
  | count + 1, session =>
      match session.next patience with
      | (.improved improvement, session) =>
          let (more, session) := session.take patience count
          (improvement :: more, session)
      | (_, session) => ([], session)

def setLimit (session : Session) (limit : Nat) : Session :=
  { session with search := { session.search with limit := some limit } }

/-- Raises a signal. -/
def stop (session : Session) (signal : Nat) : Session :=
  { session with
    signals := session.signals.set signal true
    attached_lt := by simpa using session.attached_lt }

@[simp] theorem isStopped_stop_attached (session : Session) :
    (session.stop session.attached).isStopped = true := by
  simp [isStopped, stop]

/-- A raised signal stays raised, whichever signal is raised next. -/
theorem stop_keeps {session : Session} {other : Nat} (signal : Nat)
    (h : session.signals[other]? = some true) :
    (session.stop signal).signals[other]? = some true := by
  by_cases e : signal = other <;> grind [stop]

/-- Makes the search obey a signal. A number that no signal has makes a new one. -/
def attach (session : Session) (signal : Nat) : Session :=
  if h : signal < session.signals.length then
    { session with attached := signal, attached_lt := h }
  else
    { session with
      signals := session.signals ++ [false]
      attached := session.signals.length
      attached_lt := by simp }

end Session

/-- What can be asked of a session. -/
inductive Request where
  /-- The next `count` improvements. -/
  | take (count : Nat)
  | setLimit (limit : Nat)
  | stop (signal : Nat)
  | attach (signal : Nat)
  deriving Repr, DecidableEq

namespace Session

/-- Serves a request. Only `take` yields improvements. -/
def serve (patience : Nat) (session : Session) : Request → List Improvement × Session
  | .take count => session.take patience count
  | .setLimit limit => ([], session.setLimit limit)
  | .stop signal => ([], session.stop signal)
  | .attach signal => ([], session.attach signal)

/-- Serves requests in turn, and yields the improvements of all. -/
def serveAll (patience : Nat) (session : Session) : List Request → List Improvement × Session
  | [] => ([], session)
  | request :: rest =>
      let (found, session) := session.serve patience request
      let (more, session) := session.serveAll patience rest
      (found ++ more, session)

end Session

end WaveBus
