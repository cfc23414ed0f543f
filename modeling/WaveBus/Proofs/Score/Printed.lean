import WaveBus.Proofs.Fit.Transcript
import WaveBus.Proofs.Plan.Sources
import WaveBus.Proofs.Score.Paths

/-! # Printed scores

A comparison prints its score as a remark and then the parameters. So what it prints, if it
does not show its rows, is read as the parameters that were scored. If it cannot have a table
and parameters to compare, or nobody reads the output, it prints nothing and fails.
-/

namespace WaveBus

/-- A comparison was printed: what it printed is read as the parameters that were scored. -/
structure Scored (world : World) (wave : Wave) (table : Table) (params : Params)
    (outcome : Outcome) : Prop where
  exit : outcome.exit = 0
  complaint : outcome.complaint = ""
  output : outcome.output =
    "// score " ++ toString (score wave params table) ++ "\n" ++ params.text
  readBack : Params.parse outcome.output.toList = .ok params
  files : outcome.files = world.files

/-- A comparison has failed, and has printed nothing. -/
structure Unscored (world : World) (outcome : Outcome) : Prop where
  exit : outcome.exit = 1
  output : outcome.output = ""
  files : outcome.files = world.files

theorem scoreText_eq (params : Params) (report : Report) :
    Planning.scoreText false params report =
      "// score " ++ toString report.score ++ "\n" ++ params.text := by
  rw [Planning.scoreText, if_neg Bool.false_ne_true, String.empty_append]
  rfl

theorem parse_scored (score : Nat) (params : Params) :
    Params.parse ("// score " ++ toString score ++ "\n" ++ params.text).toList = .ok params := by
  have remark := Tells.numbered .zero " score ".toList (by decide) score
  rw [String.toList_append, Tells.toList_numbered]
  exact (remark.append (Tells.params .zero params)).reads.parse

theorem unscored_failed (world : World) (events : List Event) (failure : Failure) :
    Unscored world (Outcome.failed world events failure) :=
  ⟨rfl, rfl, rfl⟩

section Run

variable {world : World} {options : ScoreOptions}

theorem gives_plan_score {read : ReadFile} {result : Except Failure Job} (entropy : Entropy)
    (h : options.Prepares read options.wave result) :
    ((Command.score options).plan read entropy).Gives (result.map fun job =>
      .print (Planning.scoreText options.dump job.initial
        (Report.make job.wave job.initial job.table))) :=
  h.gives.map _

theorem scored_of_prepares {table : Table} {params : Params} (short : options.dump = false)
    (loaded : options.Loads world.files.read options.wave (.ok table))
    (seeds : options.Seeds world.files.read options.wave (.ok params))
    (heard : world.outputOpen = true) :
    Scored world options.wave table params ((Command.score options).run world) := by
  obtain ⟨events, -, ran⟩ :=
    runBy_of_gives _ (gives_plan_score world.entropy (.ready loaded seeds))
  rw [Command.run, ran, Plan.runBy, if_pos heard, short, scoreText_eq, Report.score_make]
  exact ⟨rfl, rfl, rfl, parse_scored _ params, rfl⟩

theorem unscored_of_error {failure : Failure}
    (h : options.Prepares world.files.read options.wave (.error failure)) :
    Unscored world ((Command.score options).run world) := by
  obtain ⟨events, -, ran⟩ := runBy_of_gives_error _ (gives_plan_score world.entropy h)
  rw [Command.run, ran]
  exact unscored_failed world events failure

theorem unscored_of_unheard {job : Job}
    (h : options.Prepares world.files.read options.wave (.ok job))
    (unheard : world.outputOpen = false) :
    Unscored world ((Command.score options).run world) := by
  obtain ⟨events, -, ran⟩ := runBy_of_gives _ (gives_plan_score world.entropy h)
  rw [Command.run, ran, Plan.runBy, if_neg (by simp [unheard])]
  exact unscored_failed world events .outputClosed

/-- There is nothing else that a comparison without its rows can come to. -/
theorem scored_or_unscored (world : World) (short : options.dump = false) :
    Unscored world ((Command.score options).run world) ∨
      ∃ table params, options.Loads world.files.read options.wave (.ok table) ∧
        options.Seeds world.files.read options.wave (.ok params) ∧
        Scored world options.wave table params ((Command.score options).run world) := by
  obtain ⟨result, prepared⟩ := options.prepares_total world.files.read options.wave
  cases result with
  | error failure => exact .inl (unscored_of_error prepared)
  | ok job =>
      cases heard : world.outputOpen with
      | false => exact .inl (unscored_of_unheard prepared heard)
      | true =>
          cases prepared with
          | ready loaded seeds =>
              exact .inr ⟨_, _, loaded, seeds, scored_of_prepares short loaded seeds heard⟩

end Run

end WaveBus
