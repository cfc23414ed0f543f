import WaveBus.Plan

/-! # The program

Reads what a command needs, plans it, and carries out the plan: prints, writes
the one file, or lets the searches move in turn until all of them are over or the
time is. The journal goes to the error output.
-/

namespace WaveBus

def release : String := "wave-fit 0.1.0"

def usage : String :=
  String.intercalate "\n"
    ["Fit the SID combined-waveform model to sampled chip output",
     "",
     "Usage:",
     "  wave-fit fit --wave 7 --chip E [--data DIR] [--params FILE | --zero] [--seed N]",
     "               [--iterations N] [--seconds S]",
     "  wave-fit score --wave 7 --chip E [--data DIR] [--params FILE | --zero] [--dump]",
     "  wave-fit table --wave 6 (--chip E | --params FILE) --output FILE",
     "  wave-fit presets",
     ""]

/-- The variable that names the least urgent level of the journal. -/
def levelVariable : String := "RUST_LOG"

/-- The least urgent level of the journal, which may be switched off. -/
def journalLevel : IO (Option Level) := do
  match ← IO.getEnv levelVariable with
  | some name => return Level.ofName? name
  | none => return some .info

def journal (least? : Option Level) (events : List Event) : IO Unit := do
  for event in events do
    if least?.any event.level.isKept then
      IO.eprintln event.alignedLine

/-- What an error of the system means for a file. -/
def fileError (e : IO.Error) : FileError :=
  match e with
  | .noFileOrDirectory .. => .notFound
  | .inappropriateType _ 20 _ => .notDirectory
  | .inappropriateType _ 21 _ => .isDirectory
  | .invalidArgument _ 36 _ => .nameTooLong
  | e => .other (toString e)

/-- Reads the files at the given paths. Any other path counts as missing. -/
def readAll (paths : List String) : IO ReadFile := do
  let held ← paths.mapM fun (path : String) => do
    try
      return (path, Except.ok (← IO.FS.readBinFile path))
    catch e =>
      return (path, Except.error (fileError e))
  return fun path => (held.lookup path).getD (.error .notFound)

/-- Writes a block, and tells whether that succeeded. -/
def emit (block : String) : IO Bool := do
  try
    let output ← IO.getStdout
    output.putStr block
    output.flush
    return true
  catch _ =>
    return false

def complain (failure : Failure) : IO UInt32 := do
  IO.eprint failure.report
  return 1

/-- Lets one search move, with its block and its events. -/
def moveOne (least? : Option Level) (fit : Fit) (i : Nat) : IO Fit := do
  let written ←
    match fit.block? i with
    | some block => emit block
    | none => pure true
  let moved := fit.move i written
  journal least? moved.events
  return { moved with events := [], blocks := [] }

/-- Whether the time is over, which it never is without a deadline. -/
def isLate (deadline? : Option Nat) : IO Bool := do
  match deadline? with
  | some deadline => return deadline ≤ (← IO.monoMsNow)
  | none => return false

/-- Lets the searches move in turn until all are over. The time is up only once. -/
partial def moveAll (least? : Option Level) (deadline? : Option Nat) (fit : Fit) : IO Unit := do
  if fit.runners.all Runner.isOver then
    return
  if ← isLate deadline? then
    let expired := fit.expire
    journal least? expired.events
    moveAll least? none { expired with events := [] }
  else
    let fit ← (List.range fit.runners.length).foldlM (moveOne least?) fit
    moveAll least? deadline? fit

def carryOut (least? : Option Level) : Plan → IO UInt32
  | .print text => do
      if ← emit text then return 0 else complain .outputClosed
  | .save wave path table => do
      try
        IO.FS.writeFile path table.text
        journal least? [.tableWritten wave path]
        return 0
      catch e =>
        complain (.tableUnwritten path (fileError e))
  | .search searches seconds? => do
      let now ← IO.monoMsNow
      let deadline? := seconds?.map fun seconds => now + (seconds * 1000.0).toUInt64.toNat
      moveAll least? deadline? (Fit.start searches)
      return 0

/-- How many bytes make a key. -/
def bytesPerKey : Nat := 32

/-- Key number `i` in some bytes, four of which make a word, the low byte first. -/
def keyIn (bytes : ByteArray) (i : Nat) : ChaCha.Key :=
  Vector.ofFn fun word =>
    let byte (place : Nat) : UInt32 :=
      (bytes.data.getD (bytesPerKey * i + 4 * word + place) 0).toUInt32
    byte 0 ||| byte 1 <<< 8 ||| byte 2 <<< 16 ||| byte 3 <<< 24

/-- How many searches a command may begin. -/
def searchCount : Command → Nat
  | .fit options => options.waves.length
  | _ => 0

def perform (command : Command) : IO UInt32 := do
  let least? ← journalLevel
  let read ← readAll command.inputs
  let bytes ← IO.getRandomBytes (USize.ofNat (bytesPerKey * searchCount command))
  let (planned, events) := (command.plan read (keyIn bytes)).run
  journal least? events
  match planned with
  | .ok plan => carryOut least? plan
  | .error failure => complain failure

end WaveBus

def main (arguments : List String) : IO UInt32 := do
  match WaveBus.Command.read arguments with
  | .ok command => WaveBus.perform command
  | .error .helpWanted => do
      IO.print WaveBus.usage
      return 0
  | .error .versionWanted => do
      IO.println WaveBus.release
      return 0
  | .error e => do
      IO.eprintln s!"error: {e.message}"
      return 2
