import WaveBus.Proofs.Search.Next
import WaveBus.Proofs.Session.Signals
import WaveBus.Proofs.Session.Trajectory

/-! # The log of a search

A search reports its start, and then every candidate that it tries. The log tells of each of
them whether it was returned, so how many candidates there were and how good the best of them
is can be read off its lines, without the search.
-/

namespace WaveBus

/-! ## Reading a log -/

/-- The best score as an event of a search leaves it. A rejected candidate changes nothing. -/
def Event.reached? : Event → Option Nat
  | .searchStarted _ score => some score
  | .candidateAccepted _ _ _ after => some after
  | _ => none

/-- The best score behind some events of a search. -/
def Event.lastReached? (events : List Event) : Option Nat :=
  (events.filterMap reached?).getLast?

namespace Log

/-- The number that ends a line. -/
def lastNumber (line : String) : Nat :=
  Nat.ofDigitChars 10 (line.toList.reverse.takeWhile Char.isDigit).reverse 0

/-- Lines of the lowest level are about rejected candidates, all others end in a best score. -/
def reached? (line : String) : Option Nat :=
  if "TRACE".toList.isPrefixOf line.toList then none else some (lastNumber line)

def bestScore? (lines : List String) : Option Nat :=
  (lines.filterMap reached?).getLast?

/-- The first line is about the start. -/
def candidates (lines : List String) : Nat := lines.length - 1

theorem lastNumber_eq {line : String} (before : List Char) {number : Nat}
    (h : line.toList = before ++ Nat.toDigits 10 number) (gap : before.getLast? = some ' ') :
    lastNumber line = number := by
  obtain ⟨front, rfl⟩ := List.getLast?_eq_some_iff.1 gap
  have digit : ∀ c ∈ (Nat.toDigits 10 number).reverse, c.isDigit = true := by
    intro c inside
    exact Nat.isDigit_of_mem_toDigits (by decide) (by decide) (List.mem_reverse.1 inside)
  have reversed : line.toList.reverse =
      (Nat.toDigits 10 number).reverse ++ ' ' :: front.reverse := by
    simp [h]
  rw [lastNumber, reversed, List.takeWhile_append_of_pos digit,
    List.takeWhile_cons_of_neg (by decide), List.append_nil, List.reverse_reverse,
    Nat.ofDigitChars_toDigits (by decide) (by decide)]

theorem toList_line (event : Event) :
    event.line.toList =
      event.level.name.toList ++ ' ' :: (event.target.toList ++ ':' :: ' ' :: event.message.toList) := by
  simp only [Event.line, String.toList_append, List.append_assoc]
  rfl

theorem isPrefixOf_line (event : Event) :
    "TRACE".toList.isPrefixOf event.line.toList = decide (event.level = .trace) := by
  rw [toList_line]
  cases event.level <;> simp [Level.name, List.isPrefixOf]

/-- A line ends as the message ends. -/
theorem lastNumber_line {event : Event} (before : String) {number : Nat}
    (h : event.message = before ++ toString number) (gap : before.toList.getLast? = some ' ') :
    lastNumber event.line = number := by
  apply lastNumber_eq
    (event.level.name.toList ++ ' ' :: (event.target.toList ++ ':' :: ' ' :: before.toList))
  · rw [toList_line, h, String.toList_append, Nat.toString_eq_repr, Nat.toList_repr]
    simp
  · simp [List.getLast?_append, List.getLast?_cons, gap]

theorem lastNumber_searchStarted (wave : Wave) (score : Nat) :
    lastNumber (Event.searchStarted wave score).line = score := by
  apply lastNumber_line ("wave " ++ wave.text ++ ": initial score ") rfl
  rw [String.toList_append, List.getLast?_append]
  rfl

theorem lastNumber_candidateAccepted (wave : Wave) (iteration before after : Nat) :
    lastNumber (Event.candidateAccepted wave iteration before after).line = after := by
  apply lastNumber_line ("wave " ++ wave.text ++ ": iteration " ++ toString iteration ++
    " accepted, score " ++ toString before ++ " -> ") rfl
  rw [String.toList_append, List.getLast?_append]
  rfl

theorem reached?_start (wave : Wave) (score : Nat) :
    reached? (Event.searchStarted wave score).line = some score := by
  rw [reached?, isPrefixOf_line, lastNumber_searchStarted]
  rfl

/-- Of a trial the line tells as much as the event. -/
theorem reached?_trial (wave : Wave) (trial : Attempt) :
    reached? (trial.event wave).line = (trial.event wave).reached? := by
  rw [reached?, isPrefixOf_line, Attempt.event]
  split
  next => rw [lastNumber_candidateAccepted]; rfl
  next => rfl

end Log

/-! ## The log of a trajectory -/

@[simp] theorem Attempt.score_improvement (trial : Attempt) :
    trial.improvement.score = trial.score := rfl

theorem Attempt.level_event (wave : Wave) (trial : Attempt) :
    (trial.event wave).level = if trial.accepted then .debug else .trace := by
  rw [Attempt.event]
  split <;> rfl

namespace Trajectory

variable (path : Trajectory)

/-- What a search reports that has tried `n` candidates. -/
def log (n : Nat) : List Event :=
  .searchStarted path.wave (path.best 0).score :: (path.attempts n).map (Attempt.event path.wave)

theorem before_attempt (n : Nat) : (path.attempt n).before = (path.best n).score := by
  simp only [attempt]

theorem event_attempt (n : Nat) : (path.attempt n).event path.wave =
    if (path.attempt n).accepted then
      .candidateAccepted path.wave (n + 1) (path.best n).score (path.attempt n).score
    else .candidateRejected path.wave (n + 1) (path.attempt n).score := by
  rw [← before_attempt]
  rfl

theorem log_succ (n : Nat) : path.log (n + 1) = path.log n ++ [(path.attempt n).event path.wave] := by
  simp [log, attempts_succ]

@[simp] theorem length_log (n : Nat) : (path.log n).length = n + 1 := by
  simp [log, attempts]

/-- What has been reported stays as it is. -/
theorem log_isPrefix {m n : Nat} (le : m ≤ n) : path.log m <+: path.log n := by
  induction le with
  | refl => exact List.prefix_refl _
  | step _ ih =>
      rw [log_succ]
      exact ih.trans (List.prefix_append _ _)

theorem take_log {m n : Nat} (le : m ≤ n) : (path.log n).take (m + 1) = path.log m := by
  have first := List.prefix_iff_eq_take.1 (path.log_isPrefix le)
  rw [length_log] at first
  exact first.symm

theorem getElem?_log {m n : Nat} (lt : m < n) :
    (path.log n)[m + 1]? = some ((path.attempt m).event path.wave) := by
  rw [log, List.getElem?_cons_succ, attempts, List.getElem?_map, List.getElem?_map,
    List.getElem?_range lt, Option.map_some, Option.map_some]

theorem best_succ (n : Nat) : path.best (n + 1) =
    if (path.attempt n).accepted then ⟨(path.attempt n).candidate, (path.attempt n).score⟩
    else path.best n := by
  have candidate : ((path.best n).params.perturb (.ofStep path.stream n)).1 =
      (path.attempt n).candidate := by simp only [attempt]
  have reached : score path.wave (path.attempt n).candidate path.table =
      (path.attempt n).score := by simp only [attempt]
  rw [best, candidate, reached, ← before_attempt]
  simp only [Attempt.accepted_iff]

theorem score_best_succ (n : Nat) : (path.best (n + 1)).score =
    if (path.attempt n).accepted then (path.attempt n).score else (path.best n).score := by
  rw [best_succ, apply_ite Standing.score]

theorem lastReached?_log (n : Nat) : Event.lastReached? (path.log n) = some (path.best n).score := by
  induction n with
  | zero => rfl
  | succ n ih =>
      rw [Event.lastReached?] at ih
      rw [log_succ, Event.lastReached?, List.filterMap_append, score_best_succ, Attempt.event]
      split
      next => simp [Event.reached?]
      next => simp [Event.reached?, ih]

theorem reached?_lines (n : Nat) :
    ((path.log n).map Event.line).filterMap Log.reached? = (path.log n).filterMap Event.reached? := by
  have trials : Log.reached? ∘ Event.line ∘ Attempt.event path.wave =
      Event.reached? ∘ Attempt.event path.wave := funext (Log.reached?_trial path.wave)
  simp only [log, List.map_cons, List.filterMap_cons, Log.reached?_start, List.map_map,
    List.filterMap_map, trials, Event.reached?]

theorem mem_improvements {improvement : Improvement} {n : Nat} :
    improvement ∈ path.improvements n ↔
      ∃ m < n, (path.attempt m).accepted = true ∧ (path.attempt m).improvement = improvement := by
  simp only [improvements, attempts, List.mem_map, List.mem_filter, List.mem_range]
  constructor
  · rintro ⟨_, ⟨⟨m, lt, rfl⟩, accepted⟩, same⟩
    exact ⟨m, lt, accepted, same⟩
  · rintro ⟨m, lt, accepted, same⟩
    exact ⟨_, ⟨⟨m, lt, rfl⟩, accepted⟩, same⟩

/-- Which candidate an improvement was is told by its number. -/
theorem exists_improvement_iff {m n : Nat} (lt : m < n) {P : Improvement → Prop} :
    (∃ improvement ∈ path.improvements n, improvement.iteration = m + 1 ∧ P improvement) ↔
      (path.attempt m).accepted = true ∧ P (path.attempt m).improvement := by
  constructor
  · rintro ⟨_, inside, number, holds⟩
    obtain ⟨k, -, accepted, rfl⟩ := path.mem_improvements.1 inside
    obtain rfl : k = m := Nat.succ.inj number
    exact ⟨accepted, holds⟩
  · rintro ⟨accepted, holds⟩
    exact ⟨_, path.mem_improvements.2 ⟨m, lt, accepted, rfl⟩, rfl, holds⟩

end Trajectory

namespace History

/-- The log of a history agrees with what its search has tried and returned. The best score
    after `n` candidates is `best n`. -/
structure Traced (wave : Wave) (best : Nat → Nat) (history : History) : Prop where
  opening : history.session.events.head? = some (.searchStarted wave history.search.initialScore)
  /-- Behind the first there is one event for each candidate. -/
  count : history.session.events.length = history.search.iterations + 1
  levels : history.session.events.map Event.level = .info ::
    (List.range history.search.iterations).map fun n =>
      if history.found.any (·.iteration == n + 1) then .debug else .trace
  /-- A candidate is reported as accepted just when it was returned. -/
  accepted : ∀ n < history.search.iterations, ∀ before after,
    history.session.events[n + 1]? = some (.candidateAccepted wave (n + 1) before after) ↔
      before = best n ∧ ∃ improvement ∈ history.found,
        improvement.iteration = n + 1 ∧ improvement.score = after
  notWorse : ∀ n, ∀ improvement ∈ history.found, improvement.iteration = n + 1 →
    improvement.score ≤ best n
  rejected : ∀ n < history.search.iterations,
    (∀ improvement ∈ history.found, improvement.iteration ≠ n + 1) → ∃ score, best n < score ∧
      history.session.events[n + 1]? = some (.candidateRejected wave (n + 1) score)
  /-- The best score at any moment is the one reported last, in the start or for a candidate. -/
  last : ∀ n ≤ history.search.iterations,
    Event.lastReached? (history.session.events.take (n + 1)) = some (best n)
  current : history.search.best.score = best history.search.iterations

/-- What a session reports is its start and its trials. -/
structure Reports (wave : Wave) (opening : Event) (history : History) : Prop where
  wave_eq : history.search.wave = wave
  events : history.session.events = opening :: history.tried.map (Attempt.event wave)

theorem Reports.perform {wave : Wave} {opening : Event} {history : History}
    (h : history.Reports wave opening) (operation : Operation) :
    (history.perform operation).Reports wave opening := by
  cases operation with
  | next patience =>
      have wave_eq : history.session.search.wave = wave := h.wave_eq
      refine ⟨(Search.wave_next _ _ _).trans h.wave_eq, ?_⟩
      simp only [History.perform, Session.next, h.events, wave_eq, List.map_append,
        List.cons_append, search]
  | setLimit limit => exact ⟨h.wave_eq, h.events⟩
  | attach signal =>
      refine ⟨?_, ?_⟩
      · rw [← h.wave_eq]
        simp only [History.perform, search, Session.search_attach]
      · simp only [History.perform, Session.events_attach, h.events]
  | stop signal => exact ⟨h.wave_eq, h.events⟩

theorem Reports.performAll {wave : Wave} {opening : Event} {history : History}
    (h : history.Reports wave opening) (operations : List Operation) :
    (history.performAll operations).Reports wave opening := by
  induction operations generalizing history with
  | nil => exact h
  | cons operation rest ih => exact ih (h.perform operation)

theorem kept_initialScore (score : Nat) : Kept fun search _ => search.initialScore = score where
  attempt := fun h => h
  limit := fun _ h => h

/-- A history stands at some point of its trajectory and has the log of that point. -/
structure Stands (path : Trajectory) (history : History) : Prop where
  best : history.search.best = path.best history.search.iterations
  initialScore : history.search.initialScore = (path.best 0).score
  found : history.found = path.improvements history.search.iterations
  events : history.session.events = path.log history.search.iterations

theorem stands_performAll (path : Trajectory) (operations : List Operation) :
    Stands path ((start path.wave path.table path.initial path.stream).performAll operations) := by
  have reached := path.kept.performAll operations
    (Trajectory.reaches_start path.wave path.table path.initial path.stream)
  have returned := @found_performAll operations
    (start path.wave path.table path.initial path.stream) rfl
  have opening : (start path.wave path.table path.initial path.stream).search.initialScore =
      (path.best 0).score := by
    simp only [start, search, Session.start, Search.start, Trajectory.best]
  have reports := @Reports.performAll path.wave _
    (start path.wave path.table path.initial path.stream) ⟨rfl, rfl⟩ operations
  refine ⟨reached.best, (kept_initialScore _).performAll operations opening, ?_, ?_⟩
  · rw [returned, reached.tried]
    rfl
  · rw [reports.events, reached.tried, Trajectory.log, ← opening]
    rfl

variable {path : Trajectory} {history : History}

namespace Stands

theorem levels (h : Stands path history) : history.session.events.map Event.level = .info ::
    (List.range history.search.iterations).map fun n =>
      if history.found.any (·.iteration == n + 1) then .debug else .trace := by
  have returned : ∀ n < history.search.iterations,
      history.found.any (·.iteration == n + 1) = (path.attempt n).accepted := by
    intro n lt
    have same := path.exists_improvement_iff lt (P := fun _ => True)
    simp only [and_true] at same
    rw [h.found, Bool.eq_iff_iff, List.any_eq_true]
    simpa only [beq_iff_eq] using same
  have kinds : (List.range history.search.iterations).map (fun n =>
        if history.found.any (·.iteration == n + 1) then Level.debug else .trace) =
      (path.attempts history.search.iterations).map fun trial =>
        if trial.accepted then .debug else .trace := by
    rw [Trajectory.attempts, List.map_map]
    apply List.map_congr_left
    intro n inside
    rw [returned n (List.mem_range.1 inside), Function.comp_apply]
  rw [kinds, h.events, Trajectory.log]
  simp only [List.map_cons, List.map_map, Function.comp_def, Attempt.level_event]
  rfl

theorem accepted (h : Stands path history) {n : Nat} (lt : n < history.search.iterations)
    (before after : Nat) :
    history.session.events[n + 1]? = some (.candidateAccepted path.wave (n + 1) before after) ↔
      before = (path.best n).score ∧ ∃ improvement ∈ history.found,
        improvement.iteration = n + 1 ∧ improvement.score = after := by
  rw [h.events, h.found, path.getElem?_log lt, path.event_attempt,
    path.exists_improvement_iff lt (P := fun improvement => improvement.score = after),
    Attempt.score_improvement]
  generalize path.attempt n = trial
  split
  next accepted => simp [accepted, eq_comm]
  next rejected => simp [rejected]

theorem notWorse (h : Stands path history) {n : Nat} {improvement : Improvement}
    (inside : improvement ∈ history.found) (number : improvement.iteration = n + 1) :
    improvement.score ≤ (path.best n).score := by
  rw [h.found] at inside
  obtain ⟨m, -, accepted, rfl⟩ := path.mem_improvements.1 inside
  obtain rfl : m = n := Nat.succ.inj number
  rw [Attempt.score_improvement, ← path.before_attempt]
  exact (Attempt.accepted_iff _).1 accepted

theorem rejected (h : Stands path history) {n : Nat} (lt : n < history.search.iterations)
    (none : ∀ improvement ∈ history.found, improvement.iteration ≠ n + 1) :
    ∃ score, (path.best n).score < score ∧
      history.session.events[n + 1]? = some (.candidateRejected path.wave (n + 1) score) := by
  have rejected : ¬ (path.attempt n).accepted = true := by
    intro accepted
    refine none (path.attempt n).improvement ?_ rfl
    rw [h.found]
    exact path.mem_improvements.2 ⟨n, lt, accepted, rfl⟩
  refine ⟨(path.attempt n).score, ?_, ?_⟩
  · rw [Attempt.accepted_iff, path.before_attempt] at rejected
    exact Nat.lt_of_not_le rejected
  · rw [h.events, path.getElem?_log lt, path.event_attempt, if_neg rejected]

theorem traced (h : Stands path history) :
    Traced path.wave (fun n => (path.best n).score) history where
  opening := by
    rw [h.events, h.initialScore]
    rfl
  count := by rw [h.events, path.length_log]
  levels := h.levels
  accepted := fun _ lt => h.accepted lt
  notWorse := fun _ _ => h.notWorse
  rejected := fun _ => h.rejected
  last := by
    intro n le
    rw [h.events, path.take_log le, path.lastReached?_log]
  current := congrArg Standing.score h.best

theorem candidates (h : Stands path history) :
    Log.candidates (history.session.events.map Event.line) = history.search.iterations := by
  rw [Log.candidates, List.length_map, h.events, path.length_log, Nat.add_sub_cancel]

theorem bestScore? (h : Stands path history) :
    Log.bestScore? (history.session.events.map Event.line) = some history.search.best.score := by
  rw [Log.bestScore?, h.events, path.reached?_lines, h.best]
  exact path.lastReached?_log _

end Stands

/-- Whatever is done to a search, its log is that of the candidates it has tried. The number of
    candidates and the best score stand in the lines of the log. -/
theorem log_is_faithful (wave : Wave) (table : Table) (initial : Params) (stream : Nat → UInt32)
    (operations : List Operation) :
    let path : Trajectory := ⟨wave, table, initial, stream⟩
    let history := (start wave table initial stream).performAll operations
    let lines := history.session.events.map Event.line
    Traced wave (fun n => (path.best n).score) history ∧
      Log.candidates lines = history.search.iterations ∧
      Log.bestScore? lines = some history.search.best.score := by
  intro path history lines
  have stands : Stands path history := stands_performAll path operations
  exact ⟨stands.traced, stands.candidates, stands.bestScore?⟩

/-- Of three candidates the second was taken. -/
example : Log.bestScore? ["INFO sidwave_dsp::optimizer: wave 6: initial score 23",
    "TRACE sidwave_dsp::optimizer: wave 6: iteration 1 rejected, score 120",
    "DEBUG sidwave_dsp::optimizer: wave 6: iteration 2 accepted, score 23 -> 9",
    "TRACE sidwave_dsp::optimizer: wave 6: iteration 3 rejected, score 10"] = some 9 := by
  decide

end History

end WaveBus
