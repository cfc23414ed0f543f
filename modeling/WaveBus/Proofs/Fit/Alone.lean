import WaveBus.Proofs.Fit.Moves
import WaveBus.Proofs.Fit.Planned
import WaveBus.Proofs.Score.Printed
import WaveBus.Proofs.Session.History

/-! # A search alone

A fit writes nothing but blocks, so its output is read back. A fit of one search writes its
initial score and then its improvements, each with the score that its parameters have. So a
search that starts from what such an output is read as has the score that was written last.
-/

namespace WaveBus

/-- What a search writes on its own, from its initial score on. -/
def Fit.entries (wave : Wave) (first : Nat) (found : List Improvement) : List Entry :=
  ⟨false, wave, .opening first⟩ :: found.map fun improvement => ⟨false, wave, .improved improvement⟩

theorem improvements_entries (wave : Wave) (first : Nat) (found : List Improvement) :
    improvements (Fit.entries wave first found) = found := by
  show (found.map _).filterMap _ = found
  rw [List.filterMap_map]
  exact List.filterMap_some

/-! ## Moves of a search -/

namespace Runner

/-- A search for what it began with, and what it is about to write has the score that its
parameters have. -/
structure Keeps (first : Search) (runner : Runner) : Prop where
  wave_eq : runner.search.wave = first.wave
  table_eq : runner.search.table = first.table
  initialScore_eq : runner.search.initialScore = first.initialScore
  pending : ∀ improvement, runner.phase = .writing improvement →
    improvement.score = score first.wave improvement.params first.table

variable {first : Search} {runner : Runner}

theorem keeps_start (first : Search) : Keeps first ⟨first, .announcing⟩ :=
  ⟨rfl, rfl, rfl, nofun⟩

theorem phase_of_pending {improvement : Improvement}
    (h : runner.pending? = some (.improved improvement)) : runner.phase = .writing improvement := by
  obtain ⟨search, phase⟩ := runner
  cases phase with
  | writing other =>
      cases h
      rfl
  | _ => cases h

theorem Keeps.move (h : Keeps first runner) (stopped written : Bool) :
    Keeps first (runner.move stopped written).runner := by
  obtain ⟨search, phase⟩ := runner
  obtain ⟨wave_eq, table_eq, initialScore_eq, -⟩ := id h
  cases phase with
  | announcing | writing =>
      cases written <;> exact ⟨wave_eq, table_eq, initialScore_eq, by rintro _ ⟨⟩⟩
  | checking =>
      simp only [Runner.move]
      split <;> exact ⟨wave_eq, table_eq, initialScore_eq, by rintro _ ⟨⟩⟩
  | trying =>
      refine ⟨wave_eq, table_eq, initialScore_eq, fun improvement writes => ?_⟩
      simp only [Runner.move] at writes
      split at writes
      · cases writes
        simp only [Attempt.improvement, search.score_attempt]
        rw [← wave_eq, ← table_eq]
      · cases writes
  | _ => exact h

end Runner

namespace Fit

variable {first : Search} {fit : Fit} {runner : Runner} {log : List Block}

/-- How much a lone search has written that began as `first`. -/
inductive Wrote (first : Search) (phase : Phase) : List Block → Prop
  | nothing (h : phase = .announcing ∨ phase = .over) : Wrote first phase []
  | begun (h : phase ≠ .announcing) (found : List Improvement) :
      Wrote first phase (first.blocks found)

/-- A search between its announcement and its end has written its initial score. -/
theorem Wrote.exists_found {phase : Phase} (h : Wrote first phase log)
    (begun : phase ≠ .announcing) (goes : phase ≠ .over) : ∃ found, log = first.blocks found := by
  cases h with
  | nothing h => exact absurd h (not_or.2 ⟨begun, goes⟩)
  | begun _ found => exact ⟨found, rfl⟩

/-- What one move adds to the output: nothing, the initial score or one improvement. -/
theorem Wrote.move (h : Wrote first runner.phase log)
    (opening : runner.search.initialScore = first.initialScore) (stopped written : Bool) :
    Wrote first (runner.move stopped written).runner.phase
      (log ++ if written then runner.pending?.toList else []) := by
  obtain ⟨search, phase⟩ := runner
  have silent : (if written then ([] : List Block) else []) = [] := ite_self []
  cases phase with
  | announcing =>
      cases h with
      | begun h => exact absurd rfl h
      | nothing h =>
          cases written with
          | false => exact .nothing (.inr rfl)
          | true =>
              have first_block : [.opening search.initialScore] = first.blocks [] := by
                rw [opening]
                rfl
              show Wrote first .checking [.opening search.initialScore]
              rw [first_block]
              exact .begun (by simp) []
  | writing improvement =>
      obtain ⟨found, rfl⟩ := h.exists_found (by simp) (by simp)
      cases written with
      | false =>
          rw [if_neg Bool.false_ne_true, List.append_nil]
          show Wrote first .over (first.blocks found)
          exact .begun (by simp) found
      | true =>
          have grown : first.blocks found ++ [.improved improvement] =
              first.blocks (found ++ [improvement]) := by
            simp [Search.blocks]
          show Wrote first .checking (first.blocks found ++ [.improved improvement])
          rw [grown]
          exact .begun (by simp) (found ++ [improvement])
  -- These moves write nothing, and no move goes back to the announcement.
  | checking | trying =>
      obtain ⟨found, rfl⟩ := h.exists_found (by simp) (by simp)
      simp only [Runner.pending?, Option.toList_none, silent, List.append_nil, Runner.move]
      split <;> exact .begun (by simp) found
  | _ =>
      simp only [Runner.pending?, Option.toList_none, silent, List.append_nil]
      exact h

/-! ## A lone search -/

/-- A fit of one search that began as `first`, with the log of its blocks. -/
structure Alone (first : Search) (fit : Fit) (runner : Runner) (log : List Block) : Prop where
  runners : fit.runners = [runner]
  keeps : runner.Keeps first
  blocks : fit.blocks = (log.map (Entry.mk false first.wave)).map Entry.text
  wrote : Wrote first runner.phase log
  sound : ∀ improvement, .improved improvement ∈ log →
    improvement.score = score first.wave improvement.params first.table

theorem alone_start (first : Search) : Alone first (start [first]) ⟨first, .announcing⟩ [] where
  runners := rfl
  keeps := Runner.keeps_start first
  blocks := rfl
  wrote := .nothing (.inl rfl)
  sound := nofun

theorem Alone.move (h : Alone first fit runner log) (i : Nat) (written : Bool) :
    ∃ runner log, Alone first (fit.move i written) runner log := by
  cases there : fit.runners[i]? with
  | none =>
      rw [move_of_none there]
      exact ⟨runner, log, h⟩
  | some mover =>
      have lone : i = 0 ∧ runner = mover := by
        rw [h.runners] at there
        cases i with
        | zero => exact ⟨rfl, Option.some.inj there⟩
        | succ i => cases there
      obtain ⟨rfl, rfl⟩ := lone
      have untagged : fit.tagged = false := by
        rw [tagged, h.runners]
        rfl
      refine ⟨(runner.move fit.stopped written).runner, _, ?_, h.keeps.move _ _, ?_,
        h.wrote.move h.keeps.initialScore_eq _ _, fun improvement inside => ?_⟩
      · rw [runners_move there, h.runners]
        rfl
      · rw [blocks_move_eq there, h.blocks, untagged, h.keeps.wave_eq, List.map_append,
          List.map_append]
      · rcases List.mem_append.1 inside with inside | inside
        · exact h.sound improvement inside
        · refine h.keeps.pending improvement (Runner.phase_of_pending ?_)
          split at inside
          · exact Option.mem_toList.1 inside
          · cases inside

theorem alone_follow (first : Search) (accepts : Nat → Bool) (schedule : List Step) :
    ∃ runner log, Alone first ((start [first]).follow accepts schedule) runner log := by
  refine follow_induction (P := fun fit => ∃ runner log, Alone first fit runner log) ?_ ?_ schedule
    ⟨_, _, alone_start first⟩
  · rintro fit i ⟨_, _, alone⟩
    exact alone.move i _
  · rintro fit ⟨runner, log, alone⟩
    exact ⟨runner, log, alone.runners, alone.keeps, alone.blocks, alone.wrote, alone.sound⟩

/-- What is read off an output that begins with the score `first`: the parameters written last,
with which a search has the score written last. -/
structure ReadsBack (wave : Wave) (table : Table) (first : Nat) (found : List Improvement)
    (output : String) : Prop where
  written : output = "" ∧ found = [] ∨ output = transcript (entries wave first found)
  parsed : Params.parse output.toList = .ok (latest found)
  scored : lastScore? output.toList = found.getLast?.map Improvement.score
  resumed : ∀ last ∈ found.getLast?, ∀ generator,
    (Search.start wave table (latest found) generator).initialScore = last.score

theorem entries_eq (first : Search) (found : List Improvement) :
    entries first.wave first.initialScore found =
      (first.blocks found).map (Entry.mk false first.wave) := by
  simp [entries, Search.blocks]

/-- A lone search can be taken up again from what it has written. -/
theorem Alone.readsBack (h : Alone first fit runner log) :
    ∃ found, ReadsBack first.wave first.table first.initialScore found fit.output := by
  obtain ⟨-, -, blocks, wrote, sound⟩ := h
  have output : fit.output = transcript (log.map (Entry.mk false first.wave)) := by
    rw [Fit.output, blocks, transcript]
  cases wrote with
  | nothing => exact ⟨[], .inl ⟨output, rfl⟩, by rw [output]; rfl, by rw [output]; rfl, by simp⟩
  | begun _ found =>
      rw [← entries_eq] at output
      have improved := improvements_entries first.wave first.initialScore found
      refine ⟨found, .inr output, ?_, ?_, fun last final generator => ?_⟩
      · rw [output, parse_transcript, improved]
      · rw [output, lastScore?_transcript, improved]
      · have inside : Block.improved last ∈ first.blocks found :=
          List.mem_cons_of_mem _ (List.mem_map_of_mem (List.mem_of_mem_getLast? final))
        rw [sound last inside, latest, final, Search.start]

theorem readsBack_follow (first : Search) (accepts : Nat → Bool) (schedule : List Step) :
    ∃ found, ReadsBack first.wave first.table first.initialScore found
      ((start [first]).follow accepts schedule).output := by
  obtain ⟨_, _, alone⟩ := alone_follow first accepts schedule
  exact alone.readsBack

/-! ## Fits as commands -/

section Run

variable (world : World) (options : FitOptions) (accepts : Nat → Bool) (schedule : List Step)

theorem exists_transcript_runBy : ∃ entries,
    ((Command.fit options).runBy (·.follow accepts schedule) world).output = transcript entries := by
  rcases options.accepted_or_refused world.files.read world.entropy with
    ⟨searches, accepted⟩ | ⟨failure, refused⟩
  · obtain ⟨_, -, ran⟩ := runBy_fit_of_accepted (·.follow accepts schedule) accepted
    obtain ⟨entries, output⟩ := exists_transcript accepts searches schedule
    exact ⟨entries, by rw [ran, output]⟩
  · obtain ⟨_, -, ran⟩ := runBy_fit_of_refused (·.follow accepts schedule) refused
    exact ⟨[], by rw [ran]; rfl⟩

theorem readsBack_runBy {wave : Wave} (lone : options.waves = [wave]) :
    let outcome := (Command.fit options).runBy (·.follow accepts schedule) world
    outcome.exit = 1 ∧ outcome.output = "" ∨
      outcome.exit = 0 ∧ ∃ table params found, options.Loads world.files.read wave (.ok table) ∧
        options.Seeds world.files.read wave (.ok params) ∧
        ReadsBack wave table (score wave params table) found outcome.output := by
  intro outcome
  rcases options.accepted_or_refused world.files.read world.entropy with
    ⟨searches, accepted⟩ | ⟨failure, refused⟩
  · refine .inr ?_
    have listed : options.waves[0]? = some wave := by rw [lone]; rfl
    obtain ⟨table, params, loaded, seeds, there⟩ := accepted.search_at listed
    have one : searches.length = 1 := by
      rw [← List.length_map Search.wave, accepted.map_wave, lone]
      rfl
    obtain ⟨search, rfl⟩ := List.length_eq_one_iff.1 one
    obtain rfl := Option.some.inj there
    obtain ⟨_, -, ran⟩ := runBy_fit_of_accepted (·.follow accepts schedule) accepted
    obtain ⟨found, readsBack⟩ := readsBack_follow
      (options.search (world.entropy 0) ⟨wave, table, params⟩) accepts schedule
    refine ⟨by simp only [outcome, ran], table, params, found, loaded, seeds, ?_⟩
    rw [FitOptions.initialScore_search] at readsBack
    simp only [outcome, ran]
    exact readsBack
  · obtain ⟨_, -, ran⟩ := runBy_fit_of_refused (·.follow accepts schedule) refused
    exact .inl ⟨by simp only [outcome, ran, Outcome.failed], by simp only [outcome, ran, Outcome.failed]⟩

end Run

/-- Whatever is written out as parameters is read back as they were: by themselves, behind the
remarks of a fit, and behind the score of a comparison. -/
theorem output_reads_back :
    (∀ params : Params, Params.parse params.text.toList = .ok params) ∧
    (∀ entries : List Entry,
      Params.parse (transcript entries).toList = .ok (latest (improvements entries))) ∧
    (∀ (wave : Wave) (table : Table) (initial : Params) (generator : Generator)
        (limit : Option Nat) (accepts : Nat → Bool) (schedule : List Step),
      let search := { Search.start wave table initial generator with limit }
      ∃ found, ReadsBack wave table search.initialScore found
        ((start [search]).follow accepts schedule).output) ∧
    (∀ (world : World) (options : FitOptions) (accepts : Nat → Bool) (schedule : List Step),
      let outcome := (Command.fit options).runBy (·.follow accepts schedule) world
      (∃ entries, outcome.output = transcript entries) ∧
      ∀ wave, options.waves = [wave] →
        outcome.exit = 1 ∧ outcome.output = "" ∨
          outcome.exit = 0 ∧ ∃ table params found,
            options.Loads world.files.read wave (.ok table) ∧
            options.Seeds world.files.read wave (.ok params) ∧
            ReadsBack wave table (score wave params table) found outcome.output) ∧
    ∀ (world : World) (options : ScoreOptions), options.dump = false →
      let outcome := (Command.score options).run world
      (∀ table params, options.Loads world.files.read options.wave (.ok table) →
        options.Seeds world.files.read options.wave (.ok params) → world.outputOpen = true →
        Scored world options.wave table params outcome) ∧
      (Unscored world outcome ∨ ∃ table params,
        options.Loads world.files.read options.wave (.ok table) ∧
        options.Seeds world.files.read options.wave (.ok params) ∧
        Scored world options.wave table params outcome) := by
  refine ⟨Params.parse_text, parse_transcript, ?_, ?_, ?_⟩
  · intro wave table initial generator limit accepts schedule search
    exact readsBack_follow search accepts schedule
  · intro world options accepts schedule
    exact ⟨exists_transcript_runBy world options accepts schedule, fun wave lone =>
      readsBack_runBy world options accepts schedule lone⟩
  · intro world options short
    exact ⟨fun table params loaded seeds heard => scored_of_prepares short loaded seeds heard,
      scored_or_unscored world short⟩

theorem output_reads_back_scored :
    let world : World := { files := .captures fun wave => render wave .zero }
    let options : ScoreOptions :=
      { toSource := FitOptions.pair.toSource, wave := .pulseTriangle, dump := false }
    let table := render .pulseTriangle .zero
    options.dump = false ∧ world.outputOpen = true ∧
      options.Loads world.files.read options.wave (.ok table) ∧
      ∃ params, options.Seeds world.files.read options.wave (.ok params) ∧
        Scored world options.wave table params ((Command.score options).run world) := by
  intro world options table
  have loaded : options.Loads world.files.read options.wave (.ok table) := loads_captures _ _
  obtain ⟨result, seeds⟩ := options.seeds_total world.files.read options.wave
  cases result with
  | error failure =>
      obtain ⟨path, named, -⟩ := seeds.of_error
      cases named
  | ok params =>
      have comparison := output_reads_back.2.2.2.2 world options rfl
      exact ⟨rfl, rfl, loaded, params, seeds, comparison.1 table params loaded seeds rfl⟩

end Fit

end WaveBus
