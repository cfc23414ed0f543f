import WaveBus.Chip
import WaveBus.Literal
import WaveBus.Numeral
import WaveBus.Options
import WaveBus.Wave

/-! # Settings

What the options of a command line set. Every value is read where it stands, and
an option that stands twice is refused, except for the waves of a command that
takes several.
-/

namespace WaveBus

/-- The options that have been given, with their values. -/
structure Settings where
  waves : List Wave := []
  chip? : Option Chip := none
  directory? : Option String := none
  paramsPath? : Option String := none
  zero : Bool := false
  seed? : Option UInt64 := none
  iterations? : Option Nat := none
  seconds? : Option Float := none
  dump : Bool := false
  output? : Option String := none

namespace Settings

/-- Reads the value of an option. -/
def readValue {α : Type} (name : OptionName) (read? : List Char → Option α) (value : String) :
    Except UsageError α :=
  match read? value.toList with
  | some result => .ok result
  | none => .error (.badValue name value)

/-- Reads the value of an option that may stand once; `held` is what it has been given before. -/
def readOnce {α : Type} (name : OptionName) (held : Option α) (read? : List Char → Option α)
    (value : String) : Except UsageError (Option α) :=
  match held with
  | some _ => .error (.repeated name)
  | none => some <$> readValue name read? value

/-- Sets a flag that may stand once. -/
def raiseOnce (name : OptionName) (held : Bool) : Except UsageError Bool :=
  if held then .error (.repeated name) else .ok true

def readWave? (text : List Char) : Option Wave := (Wave.parse text).toOption

/-- Waves with commas between them as the value of an option. -/
def readWaves? (text : List Char) : Option (List Wave) :=
  (Text.splitAll ',' text).mapM readWave?

def readChip? (text : List Char) : Option Chip := (Chip.parse text).toOption

/-- A path as the value of an option: any text but the empty one. -/
def readPath? (text : List Char) : Option String :=
  if text.isEmpty then none else some (String.ofList text)

/-- A number below `2 ^ 64` as the value of an option. -/
def readCount? (text : List Char) : Option Nat := Numeral.readBelow? UInt64.size text

/-- A span of time as the value of an option. Any number is read; whether it is a
    span of time is seen later. -/
def readSeconds? (text : List Char) : Option Float := Literal.toDouble <$> Literal.read? text

/-- The waves after an option for them. -/
def addWaves (several : Bool) (held : List Wave) (value : String) : Except UsageError (List Wave) :=
  if several then (held ++ ·) <$> readValue .wave readWaves? value
  else if held.isEmpty then (fun wave => [wave]) <$> readValue .wave readWave? value
  else .error (.repeated .wave)

/-- Takes up an option with its value. `several` tells whether the command takes several waves. -/
def add (several : Bool) (s : Settings) (name : OptionName) (value : String) :
    Except UsageError Settings := do
  match name with
  | .wave => return { s with waves := ← addWaves several s.waves value }
  | .chip => return { s with chip? := ← readOnce name s.chip? readChip? value }
  | .data => return { s with directory? := ← readOnce name s.directory? readPath? value }
  | .params => return { s with paramsPath? := ← readOnce name s.paramsPath? readPath? value }
  | .zero => return { s with zero := ← raiseOnce name s.zero }
  | .seed =>
      return { s with seed? := ← readOnce name s.seed? (fun t => UInt64.ofNat <$> readCount? t) value }
  | .iterations => return { s with iterations? := ← readOnce name s.iterations? readCount? value }
  | .seconds => return { s with seconds? := ← readOnce name s.seconds? readSeconds? value }
  | .dump => return { s with dump := ← raiseOnce name s.dump }
  | .output => return { s with output? := ← readOnce name s.output? readPath? value }

/-- What an option has been given, if it has been. -/
def require {α : Type} (name : OptionName) (held : Option α) : Except UsageError α :=
  match held with
  | some value => .ok value
  | none => .error (.missing name)

/-- Fails if both a parameter file and zero parameters are to start from. -/
def checkStart (s : Settings) : Except UsageError Unit :=
  if s.zero && s.paramsPath?.isSome then .error (.conflict .zero .params) else .ok ()

/-- The settings of the options that a command allows. -/
def read (several : Bool) (allowed : List OptionName) (arguments : List String) :
    Except UsageError Settings := do
  let settings ← Options.scan allowed (add several) {} arguments
  settings.checkStart
  return settings

end Settings

end WaveBus
