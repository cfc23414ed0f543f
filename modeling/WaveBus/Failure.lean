import WaveBus.Chip
import WaveBus.Fault
import WaveBus.Wave

/-! # Failures of a command

A command that cannot be carried out says what it could not do and, below that,
the causes from the nearest to the deepest.
-/

namespace WaveBus

/-- Why a number of seconds is no span of time. -/
inductive TimeError where
  | negative
  /-- From `2 ^ 64` seconds on, and what is no number. -/
  | tooLong
  deriving Repr, DecidableEq

def TimeError.message : TimeError → String
  | .negative => "cannot convert float seconds to Duration: value is negative"
  | .tooLong => "cannot convert float seconds to Duration: value is either too big or NaN"

/-- Why a command is not carried out. -/
inductive Failure where
  /-- One parameter file cannot start several searches. -/
  | paramsForSeveralWaves
  | badTimeLimit (cause : TimeError)
  | captureUnusable (wave : Wave) (chip : Chip) (cause : Fault)
  | paramsUnreadable (path : String) (cause : FileError)
  | paramsInvalid (path : String) (cause : Fault)
  | noPreset (wave : Wave) (chip : Chip)
  /-- Neither a chip nor a parameter file is named. -/
  | noParams
  | tableUnwritten (path : String) (cause : FileError)
  /-- Nobody reads the output. -/
  | outputClosed
  deriving Repr, DecidableEq

/-- How a write fails when nobody reads the output. -/
def brokenPipe : String := "Broken pipe (os error 32)"

namespace Failure

def message : Failure → String
  | .paramsForSeveralWaves => "--params seeds a single waveform; pass one --wave"
  | .badTimeLimit _ => "--seconds must be a finite, non-negative number of seconds"
  | .captureUnusable wave chip _ => s!"cannot load reference for wave {wave}, chip {chip}"
  | .paramsUnreadable path _ => s!"failed to read parameter file {path}"
  | .paramsInvalid path _ => s!"invalid parameter file {path}"
  | .noPreset wave chip => s!"no recorded preset for chip {chip} wave {wave}; pass --params"
  | .noParams => "pass --chip or --params"
  | .tableUnwritten path _ => s!"failed to write {path}"
  | .outputClosed => brokenPipe

/-- The causes, from the nearest to the deepest. -/
def causes : Failure → List String
  | .badTimeLimit cause => [cause.message]
  | .captureUnusable _ _ cause | .paramsInvalid _ cause => cause.chain
  | .paramsUnreadable _ cause | .tableUnwritten _ cause => [cause.message]
  | _ => []

/-- A cause behind its mark; further lines of it are indented as far. -/
def indented (mark : String) (cause : String) : String :=
  let lines := (Text.splitAll '\n' cause.toList).map String.ofList
  mark ++ String.intercalate ("\n" ++ "".pushn ' ' mark.length) lines

/-- The causes under their heading. Several are numbered. -/
def causeText : List String → String
  | [] => ""
  | [cause] => "\n\nCaused by:\n" ++ indented "    " cause
  | causes =>
      "\n\nCaused by:" ++ String.join (causes.mapIdx fun i cause =>
        "\n" ++ indented ("    " ++ toString i ++ ": ") cause)

def report (failure : Failure) : String :=
  "Error: " ++ failure.message ++ causeText failure.causes ++ "\n"

end Failure

end WaveBus
