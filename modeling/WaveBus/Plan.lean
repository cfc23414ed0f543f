import WaveBus.Capture
import WaveBus.Command
import WaveBus.Fit
import WaveBus.Preset

/-! # Plans

A command is carried out in two parts. The first reads all the files it needs
and makes a plan, or fails; the second carries out the plan. So nothing is
searched, printed or written before everything has been checked.
-/

namespace WaveBus

/-- How files are read. -/
abbrev ReadFile := String → Except FileError ByteArray

/-- A key for each search of a fit, by its place among them. -/
abbrev Entropy := Nat → ChaCha.Key

/-- A wave with the table that it is compared with and the parameters to begin with. -/
structure Job where
  wave : Wave
  table : Table
  initial : Params

/-- What is left to do when all files are read. -/
inductive Plan where
  | print (text : String)
  | save (wave : Wave) (path : String) (table : Table)
  | search (searches : List Search) (seconds? : Option Float)

/-- A part of planning: it may fail, and it reports events also if it does. -/
abbrev Planning := ExceptT Failure (StateM (List Event))

namespace Planning

def report (event : Event) : Planning Unit := modify (· ++ [event])

/-- Goes on with a result, or fails with what a fault means here. -/
def orFail {α ε : Type} (result : Except ε α) (meaning : ε → Failure) : Planning α :=
  match result with
  | .ok value => pure value
  | .error fault => throw (meaning fault)

def run {α : Type} (planning : Planning α) : Except Failure α × List Event :=
  StateT.run (ExceptT.run planning) []

end Planning

/-- The name of the capture of a wave. -/
def captureName (wave : Wave) : String := s!"WAVE{wave.text}.CSV"

def capturePath (directory : String) (wave : Wave) : String :=
  joinPath directory (captureName wave)

/-- Reads the table of a chip from the capture of a wave. -/
def loadTable (read : ReadFile) (directory : String) (wave : Wave) (chip : Chip) :
    Except Fault Table :=
  let path := capturePath directory wave
  match read path >>= textOf with
  | .error cause => .error (.unavailable path cause)
  | .ok text => Capture.read chip text.toList

/-- What `loadTable` reports before it reads. -/
def loadEvent (directory : String) (wave : Wave) (chip : Chip) : Event :=
  .readingCapture chip (capturePath directory wave)

namespace Planning

/-- The table that parameters are scored against. -/
def table (read : ReadFile) (source : Source) (wave : Wave) : Planning Table := do
  report (.openingCaptures source.chip wave source.directory)
  report (loadEvent source.directory wave source.chip)
  orFail (loadTable read source.directory wave source.chip) (.captureUnusable wave source.chip)

/-- The parameters in a file. -/
def paramsIn (read : ReadFile) (path : String) : Planning Params := do
  let text ← orFail (read path >>= textOf) (.paramsUnreadable path)
  orFail (Params.parse text.toList) (.paramsInvalid path)

/-- The parameters to begin with: those of the file; else zero if that is asked
    for; else the recorded fit; else zero. -/
def initial (read : ReadFile) (source : Source) (wave : Wave) : Planning Params := do
  match source.paramsPath? with
  | some path => paramsIn read path
  | none =>
      if source.zero then
        return .zero
      else
        match Preset.find? source.chip wave with
        | some preset =>
            report (.seedingFromPreset source.chip wave preset.score)
            return preset.params
        | none => return .zero

/-- Checks a number of seconds. -/
def timeLimit (seconds : Float) : Except TimeError Float :=
  if seconds < 0.0 then .error .negative
  else if seconds < Float.ofBits 0x43F0000000000000 then .ok seconds
  else .error .tooLong

/-- Reads what is needed for a wave, its table first. -/
def job (read : ReadFile) (source : Source) (wave : Wave) : Planning Job := do
  let table ← table read source wave
  let initial ← initial read source wave
  return { wave, table, initial }

end Planning

namespace FitOptions

/-- The random numbers of a search: by the seed of the fit, shifted by the code of the
    wave so that its searches differ, or by a key of its own. -/
def generator (options : FitOptions) (key : ChaCha.Key) (wave : Wave) : Generator :=
  match options.seed? with
  | some seed => .seeded (seed + UInt64.ofNat wave.code)
  | none => .keyed key

def search (options : FitOptions) (key : ChaCha.Key) (job : Job) : Search :=
  { Search.start job.wave job.table job.initial (options.generator key job.wave) with
    limit := options.iterations? }

def searches (options : FitOptions) (entropy : Entropy) (jobs : List Job) : List Search :=
  jobs.mapIdx fun i job => options.search (entropy i) job

end FitOptions

namespace Planning

/-- Plans a fit. Everything is read before a search is made of it. -/
def fit (read : ReadFile) (entropy : Entropy) (options : FitOptions) : Planning Plan := do
  if options.paramsPath?.isSome && options.waves.length > 1 then
    throw .paramsForSeveralWaves
  let seconds? ←
    match options.seconds? with
    | some seconds => some <$> orFail (timeLimit seconds) .badTimeLimit
    | none => pure none
  let jobs ← options.waves.mapM (job read options.toSource)
  return .search (options.searches entropy jobs) seconds?

/-- The rows of a comparison. -/
def dumpText (report : Report) : String :=
  String.join (report.rows.toList.map fun row =>
    s!"{row.index.toNat} {row.reference.toNat} {row.predicted.toNat}\n")

/-- The result of a comparison, behind its rows if they are asked for. -/
def scoreText (dump : Bool) (params : Params) (report : Report) : String :=
  (if dump then dumpText report else "") ++ s!"// score {report.score}\n" ++ params.text

def score (read : ReadFile) (options : ScoreOptions) : Planning Plan := do
  let job ← job read options.toSource options.wave
  return .print (scoreText options.dump job.initial (Report.make job.wave job.initial job.table))

/-- The parameters that a table is made of. -/
def tableParams (read : ReadFile) (options : TableOptions) : Planning Params :=
  match options.paramsPath?, options.chip? with
  | some path, _ => paramsIn read path
  | none, some chip =>
      match Preset.find? chip options.wave with
      | some preset => pure preset.params
      | none => throw (.noPreset options.wave chip)
  | none, none => throw .noParams

end Planning

/-- The paths that planning a command may read. -/
def Command.inputs : Command → List String
  | .fit options =>
      options.waves.map (capturePath options.directory) ++ options.paramsPath?.toList
  | .score options => capturePath options.directory options.wave :: options.paramsPath?.toList
  | .table options => options.paramsPath?.toList
  | .presets => []

def Command.plan (read : ReadFile) (entropy : Entropy) : Command → Planning Plan
  | .fit options => Planning.fit read entropy options
  | .score options => Planning.score read options
  | .table options => do
      let params ← Planning.tableParams read options
      return .save options.wave options.output (render options.wave params)
  | .presets => return .print Preset.listing

end WaveBus
