import WaveBus.Proofs.Capture.Written
import WaveBus.Proofs.Files.Write
import WaveBus.Proofs.Plan.Sources
import WaveBus.Proofs.Score.Distance

/-! # Saved tables

A command that saves a table settles its parameters first: from a file, or from a
recorded fit, or not at all. Then it writes one file, from which the table is read
back; and if it fails, at either point, it has written nothing.
-/

namespace WaveBus

/-- What the parameters of a table come to, or why there are none. -/
inductive TableOptions.Yields (read : ReadFile) (options : TableOptions) :
    Except Failure Params → Prop where
  | file {path : String} {result : Except Failure Params}
      (named : options.paramsPath? = some path) (held : ParamsIn read path result) :
      Yields read options result
  | preset {chip : Chip} {preset : Preset} (unnamed : options.paramsPath? = none)
      (chosen : options.chip? = some chip)
      (recorded : Preset.find? chip options.wave = some preset) : Yields read options (.ok preset.params)
  | noPreset {chip : Chip} (unnamed : options.paramsPath? = none)
      (chosen : options.chip? = some chip) (unknown : Preset.find? chip options.wave = none) :
      Yields read options (.error (.noPreset options.wave chip))
  | noParams (unnamed : options.paramsPath? = none) (unchosen : options.chip? = none) :
      Yields read options (.error .noParams)

namespace TableOptions.Yields

variable {read : ReadFile} {options : TableOptions} {result : Except Failure Params}

open Planning (gives_pure gives_throw)

theorem gives (h : options.Yields read result) :
    (Planning.tableParams read options).Gives result := by
  rw [Planning.tableParams]
  cases h with
  | file named held =>
      rw [named]
      exact held.gives
  | preset unnamed chosen recorded =>
      simp only [unnamed, chosen, recorded]
      exact gives_pure _
  | noPreset unnamed chosen unknown =>
      simp only [unnamed, chosen, unknown]
      exact gives_throw _
  | noParams unnamed unchosen =>
      simp only [unnamed, unchosen]
      exact gives_throw _

variable (read options)

theorem total : ∃ result, options.Yields read result := by
  cases named : options.paramsPath? with
  | some path =>
      obtain ⟨result, held⟩ := ParamsIn.total read path
      exact ⟨result, .file named held⟩
  | none =>
      cases chosen : options.chip? with
      | none => exact ⟨_, .noParams named chosen⟩
      | some chip =>
          cases recorded : Preset.find? chip options.wave with
          | none => exact ⟨_, .noPreset named chosen recorded⟩
          | some preset => exact ⟨_, .preset named chosen recorded⟩

end TableOptions.Yields

section Run

variable {world : World} {options : TableOptions}

theorem gives_plan_table {read : ReadFile} {result : Except Failure Params} (entropy : Entropy)
    (h : options.Yields read result) :
    ((Command.table options).plan read entropy).Gives
      (result.map fun params => .save options.wave options.output (render options.wave params)) :=
  h.gives.map _

theorem run_table_of_error {failure : Failure}
    (h : options.Yields world.files.read (.error failure)) :
    ∃ events, (Command.table options).run world = Outcome.failed world events failure := by
  obtain ⟨events, -, ran⟩ := runBy_of_gives_error _ (gives_plan_table world.entropy h)
  exact ⟨events, ran⟩

theorem run_table_of_ok {params : Params} (h : options.Yields world.files.read (.ok params)) :
    ∃ events, (Command.table options).run world =
      (Plan.save options.wave options.output (render options.wave params)).run world events := by
  obtain ⟨events, -, ran⟩ := runBy_of_gives _ (gives_plan_table world.entropy h)
  exact ⟨events, ran⟩

theorem run_save_of_error {wave : Wave} {path : String} {table : Table} {cause : FileError}
    (unwritten : world.files.write path table.text.toUTF8 = .error cause) (events : List Event) :
    (Plan.save wave path table).run world events =
      Outcome.failed world events (.tableUnwritten path cause) := by
  rw [Plan.run, Plan.runBy, unwritten]

theorem run_save_of_ok {wave : Wave} {path : String} {table : Table} {files : Files}
    (written : world.files.write path table.text.toUTF8 = .ok files) (events : List Event) :
    (Plan.save wave path table).run world events =
      { exit := 0, events := events ++ [.tableWritten wave path], files } := by
  rw [Plan.run, Plan.runBy, written]

end Run

/-- A text in which chip A has the predicted table, with nothing wrong, and no other
    chip has a table. -/
structure Predicts (wave : Wave) (params : Params) (text : String) : Prop where
  alone : ∀ chip : Chip, Capture.read chip text.toList =
    if chip.letter = 'A' then .ok (render wave params) else .error (.invalidChip chip.letter)
  perfect : ∀ chip table, Capture.read chip text.toList = .ok table → score wave params table = 0

theorem predicts_text (wave : Wave) (params : Params) :
    Predicts wave params (render wave params).text := by
  have alone := Capture.read_text (render wave params)
  refine ⟨alone, ?_⟩
  intro chip table h
  rw [alone] at h
  split at h
  next =>
    obtain rfl := Except.ok.inj h
    rw [score_eq_distance, Table.distance_eq_zero]
    exact fun _ => rfl
  next => exact absurd h (by rintro ⟨⟩)

/-- A table was saved: one file was written, and the table is read back from it. -/
structure Saved (world : World) (options : TableOptions) (params : Params) (outcome : Outcome) :
    Prop where
  exit : outcome.exit = 0
  frame : ∃ place,
    world.files.walk (Location.start options.output) (Location.names options.output) = .ok place ∧
    ∀ other, other ≠ place → outcome.files.entry other = world.files.entry other
  text : (outcome.files.read options.output >>= textOf) = .ok (render options.wave params).text
  readBack : Predicts options.wave params (render options.wave params).text

/-- Nothing was saved, for a reason that is told. -/
structure Unsaved (world : World) (failure : Failure) (outcome : Outcome) : Prop where
  exit : outcome.exit = 1
  told : outcome.complaint = failure.report
  files : outcome.files = world.files

theorem unsaved_failed (world : World) (events : List Event) (failure : Failure) :
    Unsaved world failure (Outcome.failed world events failure) :=
  ⟨rfl, rfl, rfl⟩

theorem saved_of_write {world : World} {options : TableOptions} {params : Params} {files : Files}
    (written : world.files.write options.output (render options.wave params).text.toUTF8 =
      .ok files) (events : List Event) :
    Saved world options params { exit := 0, events, files } := by
  obtain ⟨place, led, -, frame⟩ := Files.write_frame written
  exact ⟨rfl, ⟨place, led, frame⟩, Files.readText_of_write written, predicts_text options.wave params⟩

/-- The text of a table is a capture of chip A alone. Saving a table either writes it to
    one file, from which it is read back, or writes nothing. -/
theorem table_round_trip (world : World) (options : TableOptions) :
    (∃ result, options.Yields world.files.read result) ∧
    (∀ params path, options.paramsPath? = some path →
      (world.files.read path >>= textOf) = .ok params.text →
      options.Yields world.files.read (.ok params)) ∧
    (∀ failure, options.Yields world.files.read (.error failure) →
      Unsaved world failure ((Command.table options).run world)) ∧
    (∀ params, options.Yields world.files.read (.ok params) →
      (∀ cause, world.files.write options.output (render options.wave params).text.toUTF8 =
          .error cause →
        Unsaved world (.tableUnwritten options.output cause) ((Command.table options).run world)) ∧
      ∀ files, world.files.write options.output (render options.wave params).text.toUTF8 =
          .ok files →
        Saved world options params ((Command.table options).run world)) ∧
    ∀ (table : Table) (chip : Chip), Capture.read chip table.text.toList =
      if chip.letter = 'A' then .ok table else .error (.invalidChip chip.letter) := by
  refine ⟨TableOptions.Yields.total _ _, ?_, ?_, ?_, Capture.read_text⟩
  · intro params path named found
    exact .file named (.of_text params found)
  · intro failure h
    obtain ⟨events, ran⟩ := run_table_of_error h
    rw [ran]
    exact unsaved_failed world events failure
  · intro params h
    obtain ⟨events, ran⟩ := run_table_of_ok h
    rw [ran]
    refine ⟨fun cause unwritten => ?_, fun files written => ?_⟩
    · rw [run_save_of_error unwritten]
      exact unsaved_failed world events _
    · rw [run_save_of_ok written]
      exact saved_of_write written _

end WaveBus
