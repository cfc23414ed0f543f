import WaveBus.Plan

/-! # Runs

What a command line brings about: an exit code, the text on the two outputs, the
journal, and the files afterwards. Searches may take turns in any way, and a time limit
may run out at any moment; a run lets them go one after the other, and each of them to
its end before the time is up.
-/

namespace WaveBus

/-- What a run finds when it begins. -/
structure World where
  files : Files := {}
  /-- Whether anybody reads the output. -/
  outputOpen : Bool := true
  /-- The keys of searches for which no seed is named. -/
  entropy : Entropy := fun _ => ChaCha.key 0

/-- What a run brings about. -/
structure Outcome where
  exit : Nat
  output : String := ""
  complaint : String := ""
  events : List Event := []
  files : Files

namespace Outcome

/-- The outcome of a failure. Nothing has been written. -/
def failed (world : World) (events : List Event) (failure : Failure) : Outcome :=
  { exit := 1, complaint := failure.report, events, files := world.files }

/-- The outcome of a command line that is refused, or that asks for help. -/
def refused (world : World) (e : UsageError) : Outcome :=
  { exit := if e = .helpWanted || e = .versionWanted then 0 else 2
    complaint := "error: " ++ e.message ++ "\n"
    files := world.files }

end Outcome

namespace Plan

/-- Carries out a plan, behind the events of making it. `course` is how the searches move. -/
def runBy (course : Fit → Fit) (world : World) (events : List Event) : Plan → Outcome
  | .print text =>
      if world.outputOpen then
        { exit := 0, output := text, events, files := world.files }
      else
        Outcome.failed world events .outputClosed
  | .save wave path table =>
      match world.files.write path table.text.toUTF8 with
      | .ok files => { exit := 0, events := events ++ [.tableWritten wave path], files }
      | .error cause => Outcome.failed world events (.tableUnwritten path cause)
  | .search searches _ =>
      let fit := course (Fit.start searches)
      { exit := 0, output := fit.output, events := events ++ fit.events, files := world.files }

/-- Carries out a plan with one search after the other. -/
def run (world : World) (events : List Event) (plan : Plan) : Outcome :=
  plan.runBy (Fit.runAll fun _ => world.outputOpen) world events

end Plan

def Command.runBy (course : Fit → Fit) (world : World) (command : Command) : Outcome :=
  match (command.plan world.files.read world.entropy).run with
  | (.ok plan, events) => plan.runBy course world events
  | (.error failure, events) => Outcome.failed world events failure

def Command.run (world : World) (command : Command) : Outcome :=
  command.runBy (Fit.runAll fun _ => world.outputOpen) world

def runArguments (world : World) (arguments : List String) : Outcome :=
  match Command.read arguments with
  | .ok command => command.run world
  | .error e => Outcome.refused world e

end WaveBus
