import WaveBus.Settings

/-! # Commands

What the program can be asked to do, and how a command line says so. All values
have been read then, so behind this point a command is never refused for its wording.
-/

namespace WaveBus

/-- The directory of the captures unless another one is named. -/
def defaultDirectory : String := "sidwaves"

/-- Where a command takes its tables and its parameters from. -/
structure Source where
  chip : Chip
  directory : String
  paramsPath? : Option String
  /-- Whether the parameters are zero even if a fit is recorded. -/
  zero : Bool
  deriving Repr, DecidableEq

/-- What a comparison is to do. -/
structure ScoreOptions extends Source where
  wave : Wave
  /-- Whether every sample is shown. -/
  dump : Bool
  deriving Repr, DecidableEq

/-- What a fit is to do. -/
structure FitOptions extends Source where
  /-- The waves, one search each, as often as they are named. -/
  waves : List Wave
  seed? : Option UInt64
  iterations? : Option Nat
  seconds? : Option Float

/-- What a table is made of and where it goes. -/
structure TableOptions where
  wave : Wave
  chip? : Option Chip
  paramsPath? : Option String
  output : String
  deriving Repr, DecidableEq

/-- What the program can be asked to do. -/
inductive Command where
  /-- Search for better parameters. -/
  | fit (options : FitOptions)
  /-- Score parameters against a capture. -/
  | score (options : ScoreOptions)
  /-- Write the predicted table. -/
  | table (options : TableOptions)
  /-- List the recorded fits. -/
  | presets

namespace Command

def directory (settings : Settings) : String := settings.directory?.getD defaultDirectory

def readFit (arguments : List String) : Except UsageError Command := do
  let settings ← Settings.read true
    [.wave, .chip, .data, .params, .zero, .seed, .iterations, .seconds] arguments
  if settings.waves.isEmpty then
    throw (.missing .wave)
  return .fit
    { waves := settings.waves
      chip := ← Settings.require .chip settings.chip?
      directory := directory settings
      paramsPath? := settings.paramsPath?
      zero := settings.zero
      seed? := settings.seed?
      iterations? := settings.iterations?
      seconds? := settings.seconds? }

def readScore (arguments : List String) : Except UsageError Command := do
  let settings ← Settings.read false [.wave, .chip, .data, .params, .zero, .dump] arguments
  return .score
    { wave := ← Settings.require .wave settings.waves.head?
      chip := ← Settings.require .chip settings.chip?
      directory := directory settings
      paramsPath? := settings.paramsPath?
      zero := settings.zero
      dump := settings.dump }

def readTable (arguments : List String) : Except UsageError Command := do
  let settings ← Settings.read false [.wave, .chip, .params, .output] arguments
  return .table
    { wave := ← Settings.require .wave settings.waves.head?
      chip? := settings.chip?
      paramsPath? := settings.paramsPath?
      output := ← Settings.require .output settings.output? }

/-- The words that name a command. -/
def words : List String := ["fit", "score", "table", "presets", "help"]

/-- What `help` is asked about: nothing, or one command. -/
def readHelp : List String → Except UsageError Command
  | [] => .error .helpWanted
  | topic :: rest =>
      if words.contains topic then
        match rest with
        | [] => .error .helpWanted
        | extra :: _ => .error (.unknownCommand extra)
      else
        .error (.unknownCommand topic)

/-- What stands in place of a command: a wish for help or for the version. One dash
    takes the letter behind it; two take the whole word. -/
def readWish (argument : String) : UsageError :=
  if argument == "--help" then .helpWanted
  else if argument == "--version" then .versionWanted
  else
    match argument.toList with
    | '-' :: 'h' :: _ => .helpWanted
    | '-' :: 'V' :: _ => .versionWanted
    | _ => .unknownCommand argument

/-- Reads a command line without the name of the program. -/
def read : List String → Except UsageError Command
  | [] => .error .missingCommand
  | "fit" :: rest => readFit rest
  | "score" :: rest => readScore rest
  | "table" :: rest => readTable rest
  | "presets" :: rest => do
      let _ ← Settings.read false [] rest
      return .presets
  | "help" :: rest => readHelp rest
  | argument :: _ => .error (readWish argument)

end Command

end WaveBus
