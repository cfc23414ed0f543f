import Mathlib.Data.List.Forall2
import WaveBus.Outcome
import WaveBus.Proofs.Params.Reading

/-! # What planning reads

Planning takes tables from captures and parameters from files or recorded fits, and what it
comes to depends on nothing but these. A job is ready if both its table and its parameters can
be had; else the first of the two that cannot be had is what planning fails with.
-/

namespace WaveBus

/-- Whether the event is the start of a search, with its initial score. -/
def Event.isStart : Event → Bool
  | .searchStarted .. => true
  | _ => false

namespace Planning

variable {α β : Type} {failure : Failure}

/-- What planning comes to. Whatever that is, no start of a search is reported. -/
def Gives (planning : Planning α) (result : Except Failure α) : Prop :=
  ∃ events : List Event, (∀ event ∈ events, event.isStart = false) ∧
    ∀ before, StateT.run (ExceptT.run planning) before = (result, before ++ events)

theorem Gives.run {planning : Planning α} {result : Except Failure α} (h : planning.Gives result) :
    ∃ events : List Event, (∀ event ∈ events, event.isStart = false) ∧
      planning.run = (result, events) := by
  obtain ⟨events, quiet, ran⟩ := h
  exact ⟨events, quiet, ran []⟩

theorem Gives.unique {planning : Planning α} {result other : Except Failure α}
    (h : planning.Gives result) (h' : planning.Gives other) : result = other := by
  obtain ⟨_, -, ran⟩ := h
  obtain ⟨_, -, ran'⟩ := h'
  exact congrArg Prod.fst ((ran []).symm.trans (ran' []))

theorem gives_pure (value : α) : Gives (pure value) (.ok value) :=
  ⟨[], nofun, fun before => by rw [List.append_nil]; rfl⟩

theorem gives_report {event : Event} (h : event.isStart = false) : (report event).Gives (.ok ()) :=
  ⟨[event], by simpa using h, fun _ => rfl⟩

theorem gives_throw (failure : Failure) : Gives (throw failure : Planning α) (.error failure) :=
  ⟨[], nofun, fun before => by rw [List.append_nil]; rfl⟩

theorem gives_orFail {ε : Type} (result : Except ε α) (meaning : ε → Failure) :
    (orFail result meaning).Gives (result.mapError meaning) := by
  cases result with
  | error fault => exact gives_throw (meaning fault)
  | ok value => exact gives_pure value

theorem Gives.bind {first : Planning α} {next : α → Planning β} {value : α}
    {result : Except Failure β} (h : first.Gives (.ok value)) (h' : (next value).Gives result) :
    Gives (first >>= next) result := by
  obtain ⟨events, quiet, ran⟩ := h
  obtain ⟨more, quiet', ran'⟩ := h'
  refine ⟨events ++ more, ?_, fun before => ?_⟩
  · simpa [or_imp, forall_and] using And.intro quiet quiet'
  · rw [ExceptT.run_bind, StateT.run_bind, ran, ← List.append_assoc]
    exact ran' _

theorem Gives.bind_error {first : Planning α} (h : first.Gives (.error failure))
    (next : α → Planning β) : Gives (first >>= next) (.error failure) := by
  obtain ⟨events, quiet, ran⟩ := h
  refine ⟨events, quiet, fun before => ?_⟩
  rw [ExceptT.run_bind, StateT.run_bind, ran]
  rfl

/-- A last part that cannot fail makes something of the result. -/
theorem Gives.map {first : Planning α} {result : Except Failure α} (h : first.Gives result)
    (make : α → β) : Gives (first >>= fun value => pure (make value)) (result.map make) := by
  cases result with
  | error failure => exact h.bind_error _
  | ok value => exact h.bind (gives_pure _)

theorem gives_mapM {f : α → Planning β} {values : List α} {results : List β}
    (h : List.Forall₂ (fun value result => (f value).Gives (.ok result)) values results) :
    Gives (values.mapM f) (.ok results) := by
  induction h with
  | nil => exact gives_pure []
  | cons first rest ih =>
      rw [List.mapM_cons]
      exact first.bind (ih.bind (gives_pure _))

/-- The first of several that fails decides, and what is behind it does not count. -/
theorem gives_mapM_error {f : α → Planning β} {before after : List α} {value : α}
    (earlier : ∀ other ∈ before, ∃ result, (f other).Gives (.ok result))
    (h : (f value).Gives (.error failure)) :
    Gives ((before ++ value :: after).mapM f) (.error failure) := by
  induction before with
  | nil =>
      rw [List.nil_append, List.mapM_cons]
      exact h.bind_error _
  | cons first before ih =>
      obtain ⟨result, found⟩ := earlier first List.mem_cons_self
      rw [List.cons_append, List.mapM_cons]
      refine found.bind (Gives.bind_error (ih fun other inside => ?_) _)
      exact earlier other (List.mem_cons_of_mem first inside)

end Planning

open Planning (Gives gives_pure gives_report gives_throw gives_orFail)

section Run

variable {command : Command} {world : World}

/-- A command that cannot be planned fails, and nothing is carried out. -/
theorem runBy_of_gives_error {failure : Failure} (course : Fit → Fit)
    (h : (command.plan world.files.read world.entropy).Gives (.error failure)) :
    ∃ events : List Event, (∀ event ∈ events, event.isStart = false) ∧
      command.runBy course world = Outcome.failed world events failure := by
  obtain ⟨events, quiet, ran⟩ := h.run
  exact ⟨events, quiet, by rw [Command.runBy, ran]⟩

theorem runBy_of_gives {plan : Plan} (course : Fit → Fit)
    (h : (command.plan world.files.read world.entropy).Gives (.ok plan)) :
    ∃ events : List Event, (∀ event ∈ events, event.isStart = false) ∧
      command.runBy course world = plan.runBy course world events := by
  obtain ⟨events, quiet, ran⟩ := h.run
  exact ⟨events, quiet, by rw [Command.runBy, ran]⟩

end Run

/-! ## Files of parameters -/

/-- What the file of parameters at a path comes to. -/
inductive ParamsIn (read : ReadFile) (path : String) : Except Failure Params → Prop where
  | params {text : String} {params : Params} (found : (read path >>= textOf) = .ok text)
      (parsed : Params.parse text.toList = .ok params) : ParamsIn read path (.ok params)
  | unreadable {cause : FileError} (lost : (read path >>= textOf) = .error cause) :
      ParamsIn read path (.error (.paramsUnreadable path cause))
  | invalid {text : String} {cause : Fault} (found : (read path >>= textOf) = .ok text)
      (wrong : Params.parse text.toList = .error cause) :
      ParamsIn read path (.error (.paramsInvalid path cause))

namespace ParamsIn

variable {read : ReadFile} {path text : String}

theorem gives {result : Except Failure Params} (h : ParamsIn read path result) :
    (Planning.paramsIn read path).Gives result := by
  rw [Planning.paramsIn]
  cases h with
  | params found parsed =>
      rw [found]
      refine (gives_orFail _ _).bind ?_
      rw [parsed]
      exact gives_orFail _ _
  | unreadable lost =>
      rw [lost]
      exact (gives_orFail _ _).bind_error _
  | invalid found wrong =>
      rw [found]
      refine (gives_orFail _ _).bind ?_
      rw [wrong]
      exact gives_orFail _ _

theorem unique {result other : Except Failure Params} (h : ParamsIn read path result)
    (h' : ParamsIn read path other) : result = other :=
  h.gives.unique h'.gives

/-- Parameters of any kind can be given, in the file that holds their own text. -/
theorem of_text (params : Params) (found : (read path >>= textOf) = .ok params.text) :
    ParamsIn read path (.ok params) :=
  .params found (Params.parse_text params)

theorem total (read : ReadFile) (path : String) : ∃ result, ParamsIn read path result := by
  cases found : read path >>= textOf with
  | error cause => exact ⟨_, .unreadable found⟩
  | ok text =>
      cases parsed : Params.parse text.toList with
      | error cause => exact ⟨_, .invalid found parsed⟩
      | ok params => exact ⟨_, .params found parsed⟩

end ParamsIn

/-! ## Jobs -/

namespace Source

/-- What the capture of a wave comes to: its file is read before its text is. -/
inductive Loads (read : ReadFile) (source : Source) (wave : Wave) : Except Fault Table → Prop where
  | table {text : String} {table : Table}
      (found : (read (capturePath source.directory wave) >>= textOf) = .ok text)
      (captured : Capture.read source.chip text.toList = .ok table) :
      Loads read source wave (.ok table)
  | unread {cause : FileError}
      (lost : (read (capturePath source.directory wave) >>= textOf) = .error cause) :
      Loads read source wave (.error (.unavailable (capturePath source.directory wave) cause))
  | malformed {text : String} {cause : Fault}
      (found : (read (capturePath source.directory wave) >>= textOf) = .ok text)
      (wrong : Capture.read source.chip text.toList = .error cause) :
      Loads read source wave (.error cause)

/-- What the parameters come to that are settled on for a wave: those of the file, if one is
named; else zero, if that is asked for; else those of the recorded fit; else zero. -/
inductive Seeds (read : ReadFile) (source : Source) (wave : Wave) :
    Except Failure Params → Prop where
  | file {path : String} {result : Except Failure Params}
      (named : source.paramsPath? = some path) (held : ParamsIn read path result) :
      Seeds read source wave result
  | zero (unnamed : source.paramsPath? = none) (asked : source.zero = true) :
      Seeds read source wave (.ok .zero)
  | preset {preset : Preset} (unnamed : source.paramsPath? = none) (unasked : source.zero = false)
      (recorded : Preset.find? source.chip wave = some preset) :
      Seeds read source wave (.ok preset.params)
  | unrecorded (unnamed : source.paramsPath? = none) (unasked : source.zero = false)
      (unknown : Preset.find? source.chip wave = none) : Seeds read source wave (.ok .zero)

/-- What the job for a wave comes to. The table comes before the parameters. -/
inductive Prepares (read : ReadFile) (source : Source) (wave : Wave) : Except Failure Job → Prop where
  | lost {cause : Fault} (unloaded : source.Loads read wave (.error cause)) :
      Prepares read source wave (.error (.captureUnusable wave source.chip cause))
  | unseeded {table : Table} {failure : Failure} (loaded : source.Loads read wave (.ok table))
      (seeds : source.Seeds read wave (.error failure)) :
      Prepares read source wave (.error failure)
  | ready {table : Table} {initial : Params} (loaded : source.Loads read wave (.ok table))
      (seeds : source.Seeds read wave (.ok initial)) :
      Prepares read source wave (.ok { wave, table, initial })

variable {read : ReadFile} {source : Source} {wave : Wave}

theorem loads_iff {result : Except Fault Table} :
    source.Loads read wave result ↔
      loadTable read source.directory wave source.chip = result := by
  constructor
  · intro h
    cases h with
    | table found captured => rw [loadTable, found, ← captured]
    | unread lost => rw [loadTable, lost]
    | malformed found wrong => rw [loadTable, found, ← wrong]
  · intro h
    cases found : read (capturePath source.directory wave) >>= textOf with
    | error cause =>
        simp only [loadTable, found] at h
        exact h ▸ .unread found
    | ok text =>
        simp only [loadTable, found] at h
        cases result with
        | error cause => exact .malformed found h
        | ok table => exact .table found h

theorem Loads.unique {result other : Except Fault Table} (h : source.Loads read wave result)
    (h' : source.Loads read wave other) : result = other :=
  (loads_iff.1 h).symm.trans (loads_iff.1 h')

theorem Loads.gives {result : Except Fault Table} (h : source.Loads read wave result) :
    (Planning.table read source wave).Gives
      (result.mapError (.captureUnusable wave source.chip)) := by
  rw [← loads_iff.1 h]
  exact (gives_report rfl).bind ((gives_report rfl).bind (gives_orFail _ _))

theorem Seeds.gives {result : Except Failure Params} (h : source.Seeds read wave result) :
    (Planning.initial read source wave).Gives result := by
  unfold Planning.initial
  cases h with
  | file named held =>
      rw [named]
      exact held.gives
  | zero unnamed asked =>
      simp only [unnamed, asked]
      exact gives_pure _
  | preset unnamed unasked recorded =>
      simp only [unnamed, unasked, recorded]
      exact (gives_report rfl).bind (gives_pure _)
  | unrecorded unnamed unasked unknown =>
      simp only [unnamed, unasked, unknown]
      exact gives_pure _

theorem Prepares.gives {result : Except Failure Job} (h : source.Prepares read wave result) :
    (Planning.job read source wave).Gives result := by
  unfold Planning.job
  cases h with
  | lost unloaded => exact unloaded.gives.bind_error _
  | unseeded loaded seeds => exact loaded.gives.bind (seeds.gives.bind_error _)
  | ready loaded seeds => exact loaded.gives.bind (seeds.gives.bind (gives_pure _))

theorem Seeds.paramsIn {result : Except Failure Params} {path : String}
    (h : source.Seeds read wave result) (named : source.paramsPath? = some path) :
    ParamsIn read path result := by
  cases h with
  | file other held =>
      obtain rfl := Option.some.inj (named.symm.trans other)
      exact held
  | zero unnamed | preset unnamed | unrecorded unnamed => simp [named] at unnamed

/-- Only a file of parameters can be at fault. -/
theorem Seeds.of_error {failure : Failure} (h : source.Seeds read wave (.error failure)) :
    ∃ path, source.paramsPath? = some path ∧ ParamsIn read path (.error failure) := by
  cases h with
  | file named held => exact ⟨_, named, held⟩

section Total

variable (read source)

theorem seeds_total (wave : Wave) : ∃ result, source.Seeds read wave result := by
  cases named : source.paramsPath? with
  | some path =>
      obtain ⟨result, held⟩ := ParamsIn.total read path
      exact ⟨result, .file named held⟩
  | none =>
      cases asked : source.zero with
      | true => exact ⟨_, .zero named asked⟩
      | false =>
          cases recorded : Preset.find? source.chip wave with
          | none => exact ⟨_, .unrecorded named asked recorded⟩
          | some preset => exact ⟨_, .preset named asked recorded⟩

theorem prepares_total (wave : Wave) : ∃ result, source.Prepares read wave result := by
  cases loaded : loadTable read source.directory wave source.chip with
  | error cause => exact ⟨_, .lost (loads_iff.2 loaded)⟩
  | ok table =>
      obtain ⟨result, seeds⟩ := source.seeds_total read wave
      cases result with
      | error failure => exact ⟨_, .unseeded (loads_iff.2 loaded) seeds⟩
      | ok params => exact ⟨_, .ready (loads_iff.2 loaded) seeds⟩

/-- Either all jobs are ready, or there is a first that is not. -/
theorem prepares_all_or_first (waves : List Wave) :
    (∃ jobs, List.Forall₂ (fun wave job => source.Prepares read wave (.ok job)) waves jobs) ∨
    ∃ before wave after failure, waves = before ++ wave :: after ∧
      (∀ other ∈ before, ∃ job, source.Prepares read other (.ok job)) ∧
      source.Prepares read wave (.error failure) := by
  induction waves with
  | nil => exact .inl ⟨[], .nil⟩
  | cons wave waves ih =>
      obtain ⟨result, prepared⟩ := source.prepares_total read wave
      cases result with
      | error failure => exact .inr ⟨[], wave, waves, failure, rfl, nofun, prepared⟩
      | ok job =>
          rcases ih with ⟨jobs, all⟩ | ⟨before, first, after, failure, rfl, earlier, fails⟩
          · exact .inl ⟨job :: jobs, .cons prepared all⟩
          · refine .inr ⟨wave :: before, first, after, failure, rfl, ?_, fails⟩
            simpa [or_imp, forall_and] using ⟨⟨job, prepared⟩, earlier⟩

end Total

/-- The jobs that are ready are for the waves that are listed. -/
theorem map_wave_of_prepares {waves : List Wave} {jobs : List Job}
    (h : List.Forall₂ (fun wave job => source.Prepares read wave (.ok job)) waves jobs) :
    jobs.map Job.wave = waves := by
  induction h with
  | nil => rfl
  | cons first _ ih =>
      cases first with
      | ready => exact congrArg (List.cons _) ih

end Source

end WaveBus
