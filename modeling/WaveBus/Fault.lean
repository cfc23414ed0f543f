import WaveBus.Files

/-! # What can be wrong with the input

Each fault is a cause of its own; `Fault.message` puts it into words. Nothing
behind the reading of waves, chips, parameters and captures ever fails.
-/

namespace WaveBus

/-- What is wrong with a line of parameters, a record of a capture, or a count. -/
inductive Defect where
  /-- A line of parameters without `=`. -/
  | noAssignment (line : String)
  | unknownParameter (name : String)
  | notNumber (value : String)
  /-- A record with another number of cells than the first. -/
  | recordWidth (expected actual : Nat)
  | notByte (cell : String)
  | recordCount (expected actual : Nat)
  | sampleCount (expected actual : Nat)
  deriving Repr, DecidableEq

def Defect.message : Defect → String
  | .noAssignment line => s!"expected `name = value`, got `{line}`"
  | .unknownParameter name => s!"unknown parameter `{name}`"
  | .notNumber value => s!"`{value}` is not a number"
  | .recordWidth expected actual => s!"expected {expected} columns, got {actual}"
  | .notByte cell => s!"`{cell}` is not a value in 0..=255"
  | .recordCount expected actual => s!"expected {expected} rows, got {actual}"
  | .sampleCount expected actual => s!"expected {expected} samples, got {actual}"

/-- Why an input is refused. -/
inductive Fault where
  /-- The text of a wave that is none of the four. -/
  | invalidWave (text : String)
  /-- The character that stands where a chip letter should. -/
  | invalidChip (letter : Char)
  | unavailable (path : String) (cause : FileError)
  | malformed (line : Nat) (defect : Defect)
  deriving Repr, DecidableEq

namespace Fault

def message : Fault → String
  | .invalidWave text => s!"invalid waveform type '{text}': expected one of 3, 5, 6, 7"
  | .invalidChip letter => s!"invalid chip identifier '{letter}': no matching reference column"
  | .unavailable path cause => s!"reference data unavailable at {path}: {cause.message}"
  | .malformed line defect => s!"malformed input at line {line}: {defect.message}"

/-- The fault and the cause below it, if there is one. -/
def chain : Fault → List String
  | .unavailable path cause => [message (.unavailable path cause), cause.message]
  | fault => [fault.message]

end Fault

end WaveBus
