import WaveBus.Chip
import WaveBus.Wave

/-! # The journal

Everything a run reports beside its results is an event with a level, a source
and a message.
-/

namespace WaveBus

/-- How urgent an event is. -/
inductive Level where
  | warn
  | info
  | debug
  | trace
  deriving Repr, DecidableEq

namespace Level

def name : Level → String
  | .warn => "WARN"
  | .info => "INFO"
  | .debug => "DEBUG"
  | .trace => "TRACE"

/-- The position among the levels, the most urgent first. -/
def rank : Level → Nat
  | .warn => 0
  | .info => 1
  | .debug => 2
  | .trace => 3

/-- Whether a journal kept down to `least` holds events of this level. -/
def isKept (level least : Level) : Bool := level.rank ≤ least.rank

/-- The level with a given name, in capital or small letters. -/
def ofName? (name : String) : Option Level :=
  [.warn, .info, .debug, .trace].find? fun level => level.name == name.map Char.toUpper

end Level

/-- Something that a run reports. -/
inductive Event where
  | openingCaptures (chip : Chip) (wave : Wave) (directory : String)
  | readingCapture (chip : Chip) (path : String)
  | seedingFromPreset (chip : Chip) (wave : Wave) (score : Nat)
  | searchStarted (wave : Wave) (score : Nat)
  | candidateAccepted (wave : Wave) (iteration before after : Nat)
  | candidateRejected (wave : Wave) (iteration score : Nat)
  | timeUp
  | outputLost (wave : Wave) (cause : String)
  | searchEnded (wave : Wave) (best iterations initial : Nat)
  | tableWritten (wave : Wave) (path : String)
  deriving Repr, DecidableEq

namespace Event

def level : Event → Level
  | .outputLost .. => .warn
  | .readingCapture .. | .candidateAccepted .. => .debug
  | .candidateRejected .. => .trace
  | _ => .info

/-- The part of the program that reports the event. -/
def target : Event → String
  | .readingCapture .. => "sidwave_dsp::reference"
  | .searchStarted .. | .candidateAccepted .. | .candidateRejected .. => "sidwave_dsp::optimizer"
  | _ => "wave_fit"

def message : Event → String
  | .openingCaptures chip wave directory => s!"reading chip {chip} wave {wave} from {directory}"
  | .readingCapture chip path => s!"reading chip {chip} from {path}"
  | .seedingFromPreset chip wave score =>
      s!"chip {chip} wave {wave}: seeding from preset (recorded score {score})"
  | .searchStarted wave score => s!"wave {wave}: initial score {score}"
  | .candidateAccepted wave iteration before after =>
      s!"wave {wave}: iteration {iteration} accepted, score {before} -> {after}"
  | .candidateRejected wave iteration score =>
      s!"wave {wave}: iteration {iteration} rejected, score {score}"
  | .timeUp => "time limit reached, stopping"
  | .outputLost wave cause => s!"wave {wave}: cannot write output ({cause}), stopping"
  | .searchEnded wave best iterations initial =>
      s!"wave {wave}: best score {best} after {iterations} iterations (started at {initial})"
  | .tableWritten wave path => s!"wave {wave} table written to {path}"

def line (event : Event) : String :=
  s!"{event.level.name} {event.target}: {event.message}"

/-- The event on one line, with every level as wide as the widest. -/
def alignedLine (event : Event) : String :=
  let name := event.level.name
  let gap := "".pushn ' ' (5 - name.length)
  s!"{name}{gap} {event.target}: {event.message}"

end Event

end WaveBus
