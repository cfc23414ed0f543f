import WaveBus.Proofs.Fit.Moves
import WaveBus.Proofs.Fit.Planned

/-! # Fits are checked before they search

A fit that is refused has no effect but the report of the first thing that is wrong.
One that is not starts every search exactly once, however the searches take turns, and
each of them with the parameters that are settled on for its wave.
-/

namespace WaveBus

theorem flatMap_set_perm {α β : Type} {values : List α} {i : Nat} {old new : α} (f : α → List β)
    {more : List β} (there : values[i]? = some old) (h : more ++ f new = f old) :
    (more ++ (values.set i new).flatMap f).Perm (values.flatMap f) := by
  induction values generalizing i with
  | nil => simp at there
  | cons value values ih =>
      cases i with
      | zero =>
          obtain rfl : value = old := by simpa using there
          simp [← h]
      | succ i =>
          have rest := ih (by simpa using there)
          simp only [List.set_cons_succ, List.flatMap_cons]
          exact (List.perm_append_comm_assoc ..).trans (rest.append_left (f value))

/-- The start of a search that has not been reported yet. -/
def Runner.unstarted (runner : Runner) : List Event :=
  match runner.phase with
  | .announcing => [runner.search.startEvent]
  | _ => []

theorem Attempt.isStart_event (wave : Wave) (trial : Attempt) :
    (trial.event wave).isStart = false := by
  rw [Attempt.event]
  split <;> rfl

theorem Runner.starts_move (runner : Runner) (stopped written : Bool) :
    (runner.move stopped written).events.filter Event.isStart = runner.unstarted := by
  obtain ⟨search, phase⟩ := runner
  cases phase with
  | announcing | writing => cases written <;> rfl
  | checking =>
      simp only [move]
      split <;> rfl
  | trying => simp [move, unstarted, Attempt.isStart_event]
  | _ => rfl

theorem Runner.unstarted_of_move (runner : Runner) (stopped written : Bool) :
    (runner.move stopped written).runner.unstarted = [] := by
  obtain ⟨search, phase⟩ := runner
  cases phase with
  | announcing | writing => cases written <;> rfl
  | checking | trying =>
      simp only [move]
      split <;> rfl
  | _ => rfl

namespace Fit

variable {fit : Fit} {searches : List Search}

/-- The starts that are reported and those still to come. -/
def starts (fit : Fit) : List Event :=
  fit.events.filter Event.isStart ++ fit.runners.flatMap Runner.unstarted

theorem starts_move (fit : Fit) (i : Nat) (written : Bool) :
    (fit.move i written).starts.Perm fit.starts := by
  cases there : fit.runners[i]? with
  | none => rw [move_of_none there]
  | some runner =>
      simp only [starts, events_move there, runners_move there, List.filter_append,
        List.append_assoc]
      refine (flatMap_set_perm Runner.unstarted there ?_).append_left _
      rw [runner.starts_move, runner.unstarted_of_move, List.append_nil]

theorem starts_expire (fit : Fit) : fit.expire.starts = fit.starts := by
  simp [starts, expire, Event.isStart]

theorem starts_follow (accepts : Nat → Bool) (fit : Fit) (schedule : List Step) :
    (fit.follow accepts schedule).starts.Perm fit.starts :=
  follow_induction (P := fun later => later.starts.Perm fit.starts)
    (fun later i h => (starts_move later i _).trans h)
    (fun later h => (starts_expire later).symm ▸ h) schedule (.refl _)

theorem starts_start (searches : List Search) :
    (start searches).starts = searches.map Search.startEvent := by
  simp only [starts, start, List.filter_nil, List.nil_append, List.flatMap_map]
  induction searches with
  | nil => rfl
  | cons search searches ih => exact congrArg (search.startEvent :: ·) ih

/-- A search that has moved has started. -/
theorem unstarted_follow {i : Nat} {runner : Runner} (accepts : Nat → Bool) {schedule : List Step}
    (there : fit.runners[i]? = some runner) (moved : .move i ∈ schedule) :
    ∃ later, (fit.follow accepts schedule).runners[i]? = some later ∧ later.unstarted = [] := by
  have own : ∀ moves stopped write (runner : Runner), (0 < moves → runner.unstarted = []) →
      0 < moves + 1 → (runner.move stopped (accepts write)).runner.unstarted = [] :=
    fun _ stopped write runner _ _ => runner.unstarted_of_move stopped (accepts write)
  obtain ⟨later, found, h⟩ := runner_follow
    (P := fun moves _ later => 0 < moves → later.unstarted = []) (fun _ _ h => h) own schedule there
    (by simp)
  exact ⟨later, found, h (List.count_pos_iff.2 moved)⟩

/-- If every search has moved, each start has been reported once. -/
theorem starts_of_all_moved (accepts : Nat → Bool) {schedule : List Step}
    (all : ∀ i < searches.length, .move i ∈ schedule) :
    (((start searches).follow accepts schedule).events.filter Event.isStart).Perm
      (searches.map Search.startEvent) := by
  have none : ((start searches).follow accepts schedule).runners.flatMap Runner.unstarted = [] := by
    rw [List.flatMap_eq_nil_iff]
    intro runner inside
    obtain ⟨i, there⟩ := List.mem_iff_getElem?.1 inside
    have within : i < searches.length := by
      have := (List.getElem?_eq_some_iff.1 there).1
      simpa [length_runners_follow, start] using this
    have begun : (start searches).runners[i]? = some ⟨searches[i], .announcing⟩ := by
      simp [start, within]
    obtain ⟨later, found, done⟩ := unstarted_follow accepts begun (all i within)
    rwa [Option.some.inj (there.symm.trans found)]
  have kept := starts_follow accepts (start searches) schedule
  rwa [starts_start, starts, none, List.append_nil] at kept

end Fit

section Read

open Files (bind_eq_ok)

theorem waves_of_readFit {arguments : List String} {options : FitOptions}
    (h : Command.readFit arguments = .ok (.fit options)) : options.waves ≠ [] := by
  simp only [Command.readFit, bind_eq_ok] at h
  obtain ⟨settings, -, h⟩ := h
  split at h
  next => simp [bind_eq_ok, throw, throwThe, MonadExceptOf.throw] at h
  next some =>
    simp only [bind_eq_ok, pure, Except.pure, Except.ok.injEq, Command.fit.injEq] at h
    obtain ⟨_, _, rfl⟩ := h
    simpa using some

/-- Only a command line for a fit is read as one, and it names a wave. -/
theorem waves_of_read {arguments : List String} {options : FitOptions}
    (h : Command.read arguments = .ok (.fit options)) : options.waves ≠ [] := by
  unfold Command.read at h
  split at h
  case h_1 => cases h
  case h_2 => exact waves_of_readFit h
  case h_3 => simp [Command.readScore, bind_eq_ok, pure, Except.pure] at h
  case h_4 => simp [Command.readTable, bind_eq_ok, pure, Except.pure] at h
  case h_5 => simp [bind_eq_ok, pure, Except.pure] at h
  case h_6 rest =>
    unfold Command.readHelp at h
    split at h
    · cases h
    · split at h
      · split at h <;> cases h
      · cases h
  case h_7 => cases h

end Read

/-- A fit was turned away: the failure is told, and nothing else has happened. -/
structure TurnedAway (world : World) (failure : Failure) (outcome : Outcome) : Prop where
  exit : outcome.exit = 1
  output : outcome.output = ""
  told : outcome.complaint = failure.report
  unstarted : ∀ event ∈ outcome.events, event.isStart = false
  files : outcome.files = world.files

/-- A fit has started its searches, each of them once. -/
structure Started (searches : List Search) (outcome : Outcome) : Prop where
  exit : outcome.exit = 0
  complaint : outcome.complaint = ""
  starts : (outcome.events.filter Event.isStart).Perm (searches.map Search.startEvent)

/-- A search that has not moved yet, with some parameters and their score as its best. -/
structure Begins (wave : Wave) (table : Table) (params : Params) (limit : Option Nat)
    (runner : Runner) : Prop where
  phase : runner.phase = .announcing
  wave_eq : runner.search.wave = wave
  table_eq : runner.search.table = table
  best : runner.search.best = ⟨params, score wave params table⟩
  initialScore : runner.search.initialScore = score wave params table
  untried : runner.search.iterations = 0
  limit_eq : runner.search.limit = limit

section Run

variable {world : World} {options : FitOptions}

theorem begins_of_accepted {read : ReadFile} {entropy : Entropy} {searches : List Search} {i : Nat}
    {wave : Wave} (h : options.Accepted read entropy searches)
    (listed : options.waves[i]? = some wave) :
    ∃ table params runner, options.Loads read wave (.ok table) ∧
      options.Seeds read wave (.ok params) ∧ (Fit.start searches).runners[i]? = some runner ∧
      Begins wave table params options.iterations? runner := by
  obtain ⟨table, params, loaded, seeds, there⟩ := h.search_at listed
  refine ⟨table, params, ⟨options.search (entropy i) ⟨wave, table, params⟩, .announcing⟩, loaded,
    seeds, by simp [Fit.start, there], ?_⟩
  exact ⟨rfl, rfl, rfl, rfl, FitOptions.initialScore_search .., rfl, rfl⟩

theorem turnedAway_of_refused {failure : Failure} (course : Fit → Fit)
    (h : options.Refused world.files.read failure) :
    TurnedAway world failure ((Command.fit options).runBy course world) := by
  obtain ⟨events, quiet, ran⟩ := runBy_fit_of_refused course h
  rw [ran]
  exact ⟨rfl, rfl, rfl, quiet, rfl⟩

theorem started_of_accepted {searches : List Search} {course : Fit → Fit} {accepts : Nat → Bool}
    {schedule : List Fit.Step} (h : options.Accepted world.files.read world.entropy searches)
    (goes : course (Fit.start searches) = (Fit.start searches).follow accepts schedule)
    (all : ∀ i < searches.length, .move i ∈ schedule) :
    Started searches ((Command.fit options).runBy course world) := by
  obtain ⟨events, quiet, ran⟩ := runBy_fit_of_accepted course h
  have none : events.filter Event.isStart = [] := List.filter_eq_nil_iff.2 (by simpa using quiet)
  rw [ran, goes]
  refine ⟨rfl, rfl, ?_⟩
  simpa [none] using Fit.starts_of_all_moved accepts all

end Run

/-- What is wrong with a fit, if anything is, is found before a search starts. -/
structure CheckedFirst (world : World) (arguments : List String) (options : FitOptions) : Prop where
  defective : options.Defective world.files.read ↔
    ∃! failure, options.Refused world.files.read failure
  accepted : ¬ options.Defective world.files.read ↔
    ∃ searches, options.Accepted world.files.read world.entropy searches
  turnedAway : ∀ failure, options.Refused world.files.read failure →
    TurnedAway world failure (runArguments world arguments) ∧
    ∀ course, TurnedAway world failure ((Command.fit options).runBy course world)
  started : ∀ searches, options.Accepted world.files.read world.entropy searches →
    Started searches (runArguments world arguments) ∧
    ∀ accepts schedule, (∀ i < searches.length, .move i ∈ schedule) →
      Started searches ((Command.fit options).runBy (·.follow accepts schedule) world)
  /-- Whatever course the searches take, this is where it begins. -/
  begins : ∀ searches, options.Accepted world.files.read world.entropy searches →
    (∀ course : Fit → Fit, ∃ events, (Command.fit options).runBy course world =
      { exit := 0
        output := (course (Fit.start searches)).output
        events := events ++ (course (Fit.start searches)).events
        files := world.files }) ∧
    ∀ (i : ℕ) (wave : Wave), options.waves[i]? = some wave →
      ∃ table params runner, options.Loads world.files.read wave (.ok table) ∧
        options.Seeds world.files.read wave (.ok params) ∧
        (Fit.start searches).runners[i]? = some runner ∧
        Begins wave table params options.iterations? runner

theorem fit_checked_first {world : World} {arguments : List String} {options : FitOptions}
    (asked : Command.read arguments = .ok (.fit options)) :
    CheckedFirst world arguments options := by
  have listed := waves_of_read asked
  have ran : runArguments world arguments = (Command.fit options).run world := by
    rw [runArguments, asked]
  have settled := options.accepted_or_refused world.files.read world.entropy
  refine ⟨⟨fun defective => ?_, fun ⟨_, refused, _⟩ => refused.defective⟩,
    ⟨fun sound => ?_, fun ⟨_, accepted⟩ => accepted.not_defective listed⟩,
    fun failure refused => ?_, fun searches accepted => ?_,
    fun searches accepted => ⟨fun course => ?_, fun i wave => begins_of_accepted accepted⟩⟩
  · rcases settled with ⟨_, accepted⟩ | ⟨failure, refused⟩
    · exact absurd defective (accepted.not_defective listed)
    · exact ⟨failure, refused, fun _ other => other.unique refused⟩
  · rcases settled with accepted | ⟨_, refused⟩
    · exact accepted
    · exact absurd refused.defective sound
  · rw [ran]
    exact ⟨turnedAway_of_refused _ refused, fun course => turnedAway_of_refused course refused⟩
  · rw [ran]
    refine ⟨?_, fun accepts schedule => started_of_accepted accepted rfl⟩
    refine started_of_accepted accepted (Fit.runAll_eq_follow _ _) fun i within => ?_
    exact Fit.mem_turns (by simpa [Fit.start] using within)
  · obtain ⟨events, -, ran⟩ := runBy_fit_of_accepted course accepted
    exact ⟨events, ran⟩

theorem fit_checked_first_pair :
    let world : World := { files := .captures fun wave => render wave .zero }
    let arguments := ["fit", "--wave", "3,5", "-cA", "--seed=1", "--iterations", "4"]
    Command.read arguments = .ok (.fit .pair) ∧ CheckedFirst world arguments .pair ∧
      ¬ FitOptions.pair.Defective world.files.read := by
  intro world arguments
  have asked : Command.read arguments = .ok (.fit .pair) := by cbv
  exact ⟨asked, fit_checked_first asked, not_defective_pair _⟩

end WaveBus
