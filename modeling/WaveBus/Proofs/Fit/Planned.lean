import WaveBus.Proofs.Capture.Written
import WaveBus.Proofs.Files.Write
import WaveBus.Proofs.Plan.Sources

/-! # Plans of fits

A fit is planned job by job, a job for each of its waves. The first thing that is wrong
ends the planning, and no search has started until all of it is done.
-/

namespace WaveBus

namespace Planning

/-- Fails if several waves are to start from one parameter file. -/
def checkSingle (options : FitOptions) : Planning Unit :=
  if options.paramsPath?.isSome && options.waves.length > 1 then throw .paramsForSeveralWaves
  else pure ()

def checkSeconds : Option Float → Planning (Option Float)
  | some seconds => some <$> orFail (timeLimit seconds) .badTimeLimit
  | none => pure none

/-- The parts of planning a fit, in their order. -/
theorem fit_eq (read : ReadFile) (entropy : Entropy) (options : FitOptions) :
    fit read entropy options =
      (do checkSingle options
          let seconds? ← checkSeconds options.seconds?
          let jobs ← options.waves.mapM (job read options.toSource)
          return .search (options.searches entropy jobs) seconds?) := by
  unfold fit checkSingle
  cases options.paramsPath?.isSome && decide (options.waves.length > 1) with
  | true => rfl
  | false => cases options.seconds? <;> rfl

end Planning

namespace FitOptions

/-- Several waves are not started from one parameter file. -/
def Single (options : FitOptions) : Prop :=
  options.paramsPath?.isSome = true → options.waves.length ≤ 1

/-- A number of seconds that is a span of time: not negative, and below `2 ^ 64`. -/
structure Lasts (seconds : Float) : Prop where
  nonneg : ¬ seconds < 0.0
  small : seconds < Float.ofBits 0x43F0000000000000

def Timed (options : FitOptions) : Prop :=
  ∀ seconds, options.seconds? = some seconds → Lasts seconds

/-- The first thing that is wrong with a fit. -/
inductive Refused (read : ReadFile) (options : FitOptions) : Failure → Prop where
  | several (named : options.paramsPath?.isSome = true) (more : 1 < options.waves.length) :
      Refused read options .paramsForSeveralWaves
  | negative {seconds : Float} (single : options.Single) (given : options.seconds? = some seconds)
      (negative : seconds < 0.0) : Refused read options (.badTimeLimit .negative)
  | tooLong {seconds : Float} (single : options.Single) (given : options.seconds? = some seconds)
      (nonneg : ¬ seconds < 0.0) (large : ¬ seconds < Float.ofBits 0x43F0000000000000) :
      Refused read options (.badTimeLimit .tooLong)
  | wave {before after : List Wave} {wave : Wave} {failure : Failure} (single : options.Single)
      (timed : options.Timed) (listed : options.waves = before ++ wave :: after)
      (earlier : ∀ other ∈ before, ∃ job, options.Prepares read other (.ok job))
      (fails : options.Prepares read wave (.error failure)) : Refused read options failure

/-- Nothing is wrong with a fit, and these are its searches, one for each job. -/
structure Accepted (read : ReadFile) (entropy : Entropy) (options : FitOptions)
    (searches : List Search) : Prop where
  single : options.Single
  timed : options.Timed
  prepared : ∃ jobs, List.Forall₂ (fun wave job => options.Prepares read wave (.ok job))
    options.waves jobs ∧ searches = options.searches entropy jobs

/-- Something is wrong with a fit, no matter what comes first. -/
inductive Defective (read : ReadFile) (options : FitOptions) : Prop where
  | several (named : options.paramsPath?.isSome = true) (more : 1 < options.waves.length)
  | untimed {seconds : Float} (given : options.seconds? = some seconds) (wrong : ¬ Lasts seconds)
  | unloaded {wave : Wave} {cause : Fault} (listed : wave ∈ options.waves)
      (unloaded : options.Loads read wave (.error cause))
  | unseeded {path : String} {failure : Failure} (named : options.paramsPath? = some path)
      (held : ParamsIn read path (.error failure))

variable {read : ReadFile} {entropy : Entropy} {options : FitOptions} {wave : Wave}
  {failure : Failure} {searches : List Search}

open Planning (Gives gives_pure gives_throw gives_orFail gives_mapM gives_mapM_error)

theorem Single.gives (h : options.Single) : (Planning.checkSingle options).Gives (.ok ()) := by
  have one : (options.paramsPath?.isSome && decide (options.waves.length > 1)) = false := by
    simpa [Single] using h
  simpa [Planning.checkSingle, one] using gives_pure ()

theorem Timed.gives (h : options.Timed) :
    (Planning.checkSeconds options.seconds?).Gives (.ok options.seconds?) := by
  cases given : options.seconds? with
  | none => exact gives_pure none
  | some seconds =>
      obtain ⟨nonneg, small⟩ := h seconds given
      have limit : Planning.timeLimit seconds = .ok seconds := by
        simp [Planning.timeLimit, nonneg, small]
      rw [Planning.checkSeconds, limit]
      exact (gives_orFail _ _).bind (gives_pure _)

theorem gives_checkSeconds_error {seconds : Float} {cause : TimeError}
    (h : Planning.timeLimit seconds = .error cause) :
    (Planning.checkSeconds (some seconds)).Gives (.error (.badTimeLimit cause)) := by
  rw [Planning.checkSeconds, h]
  exact (gives_orFail _ _).bind_error _

theorem Accepted.gives (h : options.Accepted read entropy searches) :
    (Planning.fit read entropy options).Gives (.ok (.search searches options.seconds?)) := by
  obtain ⟨single, timed, jobs, ready, rfl⟩ := h
  have prepared := gives_mapM (ready.imp fun _ _ => Source.Prepares.gives)
  rw [Planning.fit_eq]
  exact single.gives.bind (timed.gives.bind (prepared.bind (gives_pure _)))

theorem Refused.gives (entropy : Entropy) (h : options.Refused read failure) :
    (Planning.fit read entropy options).Gives (.error failure) := by
  rw [Planning.fit_eq]
  cases h with
  | several named more =>
      have refused : Planning.checkSingle options = throw .paramsForSeveralWaves := by
        simp [Planning.checkSingle, named, more]
      rw [refused]
      exact (gives_throw _).bind_error _
  | negative single given negative =>
      rw [given]
      refine single.gives.bind ((gives_checkSeconds_error ?_).bind_error _)
      simp [Planning.timeLimit, negative]
  | tooLong single given nonneg large =>
      rw [given]
      refine single.gives.bind ((gives_checkSeconds_error ?_).bind_error _)
      simp [Planning.timeLimit, nonneg, large]
  | wave single timed listed earlier fails =>
      rw [listed]
      refine single.gives.bind (timed.gives.bind ((gives_mapM_error ?_ fails.gives).bind_error _))
      intro other inside
      exact (earlier other inside).imp fun _ => Source.Prepares.gives

theorem Refused.unique {other : Failure} (h : options.Refused read failure)
    (h' : options.Refused read other) : failure = other :=
  Except.error.inj ((h.gives fun _ => .replicate 8 0).unique (h'.gives _))

theorem accepted_or_refused (read : ReadFile) (entropy : Entropy) (options : FitOptions) :
    (∃ searches, options.Accepted read entropy searches) ∨
      ∃ failure, options.Refused read failure := by
  by_cases single : options.Single
  · by_cases timed : options.Timed
    · rcases options.prepares_all_or_first read options.waves with
        ⟨jobs, all⟩ | ⟨before, wave, after, failure, listed, earlier, fails⟩
      · exact .inl ⟨_, single, timed, jobs, all, rfl⟩
      · exact .inr ⟨failure, .wave single timed listed earlier fails⟩
    · simp only [Timed, not_forall] at timed
      obtain ⟨seconds, given, wrong⟩ := timed
      by_cases negative : seconds < 0.0
      · exact .inr ⟨_, .negative single given negative⟩
      · exact .inr ⟨_, .tooLong single given negative fun small => wrong ⟨negative, small⟩⟩
  · simp only [Single, Classical.not_imp, Nat.not_le] at single
    exact .inr ⟨_, .several single.1 single.2⟩

theorem Refused.defective (h : options.Refused read failure) : options.Defective read := by
  cases h with
  | several named more => exact .several named more
  | negative single given negative => exact .untimed given fun lasts => lasts.nonneg negative
  | tooLong single given nonneg large => exact .untimed given fun lasts => large lasts.small
  | wave single timed listed earlier fails =>
      cases fails with
      | lost unloaded => exact .unloaded (by simp [listed]) unloaded
      | unseeded loaded seeds =>
          obtain ⟨path, named, held⟩ := seeds.of_error
          exact .unseeded named held

theorem initialScore_search (options : FitOptions) (key : ChaCha.Key) (job : Job) :
    (options.search key job).initialScore = score job.wave job.initial job.table := by
  simp only [search, Search.start]

theorem Accepted.job_at {i : Nat} (h : options.Accepted read entropy searches)
    (listed : options.waves[i]? = some wave) :
    ∃ job, options.Prepares read wave (.ok job) ∧
      searches[i]? = some (options.search (entropy i) job) := by
  obtain ⟨-, -, jobs, ready, rfl⟩ := h
  obtain ⟨inside, rfl⟩ := List.getElem?_eq_some_iff.1 listed
  have inside' : i < jobs.length := ready.length_eq ▸ inside
  refine ⟨jobs[i], ready.get inside inside', ?_⟩
  simp [searches, inside']

theorem Accepted.search_at {i : Nat} (h : options.Accepted read entropy searches)
    (listed : options.waves[i]? = some wave) :
    ∃ table params, options.Loads read wave (.ok table) ∧ options.Seeds read wave (.ok params) ∧
      searches[i]? = some (options.search (entropy i) ⟨wave, table, params⟩) := by
  obtain ⟨job, ready, there⟩ := h.job_at listed
  cases ready with
  | ready loaded seeds => exact ⟨_, _, loaded, seeds, there⟩

theorem Accepted.map_wave (h : options.Accepted read entropy searches) :
    searches.map Search.wave = options.waves := by
  obtain ⟨-, -, jobs, ready, rfl⟩ := h
  rw [← Source.map_wave_of_prepares ready]
  refine List.ext_getElem? fun i => ?_
  rw [FitOptions.searches, List.getElem?_map, List.getElem?_mapIdx, List.getElem?_map,
    Option.map_map]
  rfl

theorem Accepted.exists_of_mem {search : Search} (h : options.Accepted read entropy searches)
    (inside : search ∈ searches) : ∃ key job, search = options.search key job := by
  obtain ⟨-, -, jobs, -, rfl⟩ := h
  obtain ⟨i, within, rfl⟩ := List.mem_mapIdx.1 inside
  exact ⟨_, _, rfl⟩

theorem Accepted.not_defective (h : options.Accepted read entropy searches)
    (listed : options.waves ≠ []) : ¬ options.Defective read := by
  have ready : ∀ wave ∈ options.waves, ∃ table params,
      options.Loads read wave (.ok table) ∧ options.Seeds read wave (.ok params) := by
    intro wave inside
    obtain ⟨i, there⟩ := List.mem_iff_getElem?.1 inside
    obtain ⟨table, params, loaded, seeds, -⟩ := h.search_at there
    exact ⟨table, params, loaded, seeds⟩
  intro defective
  cases defective with
  | several named more => exact absurd (h.single named) (Nat.not_le.2 more)
  | untimed given wrong => exact wrong (h.timed _ given)
  | unloaded inside unloaded =>
      obtain ⟨_, _, loaded, -⟩ := ready _ inside
      exact absurd (loaded.unique unloaded) nofun
  | unseeded named held =>
      obtain ⟨wave, inside⟩ := List.exists_mem_of_ne_nil _ listed
      obtain ⟨_, _, -, seeds⟩ := ready wave inside
      exact absurd ((seeds.paramsIn named).unique held) nofun

theorem not_defective_of_loaded (unnamed : options.paramsPath? = none)
    (untimed : options.seconds? = none)
    (loaded : ∀ wave ∈ options.waves, ∃ table, options.Loads read wave (.ok table)) :
    ¬ options.Defective read := by
  intro defective
  cases defective with
  | several named more => simp [unnamed] at named
  | untimed given wrong => simp [untimed] at given
  | unloaded inside lost =>
      obtain ⟨table, found⟩ := loaded _ inside
      exact absurd (found.unique lost) nofun
  | unseeded named => simp [unnamed] at named

end FitOptions

/-- A tree that holds a capture of every wave, each with a column for chip A. -/
def Files.captures (tables : Wave → Table) : Files where
  files := Wave.all.map fun wave =>
    ([defaultDirectory, captureName wave], (tables wave).text.toUTF8)

theorem Files.read_captures (tables : Wave → Table) (wave : Wave) :
    (Files.captures tables).read (capturePath defaultDirectory wave) =
      .ok (tables wave).text.toUTF8 := by
  have path : capturePath defaultDirectory wave = defaultDirectory ++ "/" ++ captureName wave := by
    cases wave <;> decide +kernel
  have checked : checkPath (defaultDirectory ++ "/" ++ captureName wave) = .ok () := by
    cases wave <;> rfl
  have rooted : Location.start (capturePath defaultDirectory wave) = [] := by
    cases wave <;> decide +kernel
  have names : Location.names (capturePath defaultDirectory wave) =
      [defaultDirectory, captureName wave] := by
    cases wave <;> decide +kernel
  have walked : (Files.captures tables).walk [] [defaultDirectory, captureName wave] =
      .ok [defaultDirectory, captureName wave] := by
    cases wave <;> rfl
  have entry : (Files.captures tables).entry [defaultDirectory, captureName wave] =
      .file (tables wave).text.toUTF8 := by
    cases wave <;> rfl
  rw [← path] at checked
  simp only [read, checked, rooted, names]
  simp only [bind, Except.bind, walked, entry]
  rfl

/-- A fit of two waves with a seed and a limit. -/
def FitOptions.pair : FitOptions where
  waves := [.sawTriangle, .pulseTriangle]
  chip := ⟨⟨0, by decide⟩⟩
  directory := defaultDirectory
  paramsPath? := none
  zero := false
  seed? := some 1
  iterations? := some 4
  seconds? := none

/-- Any tables can be fitted. -/
theorem loads_captures (tables : Wave → Table) (wave : Wave) :
    FitOptions.pair.Loads (Files.captures tables).read wave (.ok (tables wave)) := by
  have text : ((Files.captures tables).read (capturePath defaultDirectory wave) >>= textOf) =
      .ok (tables wave).text := by
    rw [Files.read_captures]
    exact Files.textOf_toUTF8 _
  exact .table text ((Capture.read_text (tables wave) ⟨0⟩).trans (if_pos rfl))

theorem not_defective_pair (tables : Wave → Table) :
    ¬ FitOptions.pair.Defective (Files.captures tables).read :=
  FitOptions.not_defective_of_loaded rfl rfl fun wave _ => ⟨tables wave, loads_captures tables wave⟩

theorem accepted_pair (tables : Wave → Table) (entropy : Entropy) :
    ∃ searches, FitOptions.pair.Accepted (Files.captures tables).read entropy searches := by
  rcases FitOptions.pair.accepted_or_refused (Files.captures tables).read entropy with
    accepted | ⟨_, refused⟩
  · exact accepted
  · exact absurd refused.defective (not_defective_pair tables)

section Run

variable {world : World} {options : FitOptions}

/-- A fit that is refused has written nothing, whatever searches would have done. -/
theorem runBy_fit_of_refused {failure : Failure} (course : Fit → Fit)
    (h : options.Refused world.files.read failure) :
    ∃ events : List Event, (∀ event ∈ events, event.isStart = false) ∧
      (Command.fit options).runBy course world = Outcome.failed world events failure :=
  runBy_of_gives_error course (h.gives world.entropy)

theorem runBy_fit_of_accepted {searches : List Search} (course : Fit → Fit)
    (h : options.Accepted world.files.read world.entropy searches) :
    ∃ events : List Event, (∀ event ∈ events, event.isStart = false) ∧
      (Command.fit options).runBy course world =
        { exit := 0
          output := (course (Fit.start searches)).output
          events := events ++ (course (Fit.start searches)).events
          files := world.files } := by
  have planned : ((Command.fit options).plan world.files.read world.entropy).Gives
      (.ok (.search searches options.seconds?)) := h.gives
  exact runBy_of_gives course planned

end Run

end WaveBus
