import WaveBus.Text.Line

/-! # Options on a command line

An option has a long name behind two dashes and may have a one-letter name behind
one. Its value is the rest of the argument or the next argument, unless that one
looks like an option itself. Options are taken in the order in which they stand,
each with its value, so the first that is wrong decides; and a wish for help is
granted if nothing in front of it is wrong.
-/

namespace WaveBus

/-- The options of all commands. -/
inductive OptionName where
  | wave
  | chip
  | data
  | params
  | zero
  | seed
  | iterations
  | seconds
  | dump
  | output
  deriving Repr, DecidableEq

namespace OptionName

/-- The name behind two dashes. -/
def long : OptionName → String
  | .wave => "wave"
  | .chip => "chip"
  | .data => "data"
  | .params => "params"
  | .zero => "zero"
  | .seed => "seed"
  | .iterations => "iterations"
  | .seconds => "seconds"
  | .dump => "dump"
  | .output => "output"

/-- The letter behind one dash. -/
def short? : OptionName → Option Char
  | .wave => some 'w'
  | .chip => some 'c'
  | .data => some 'd'
  | .params => some 'p'
  | .output => some 'o'
  | _ => none

def takesValue : OptionName → Bool
  | .zero | .dump => false
  | _ => true

end OptionName

/-- Why a command line is refused. -/
inductive UsageError where
  | missingCommand
  | unknownCommand (word : String)
  | unexpected (argument : String)
  | missingValue (name : OptionName)
  | needlessValue (name : OptionName)
  | repeated (name : OptionName)
  | missing (name : OptionName)
  | conflict (first second : OptionName)
  | badValue (name : OptionName) (value : String)
  /-- Not an error: the help text is asked for. -/
  | helpWanted
  /-- Not an error: the version is asked for. -/
  | versionWanted
  deriving Repr, DecidableEq

def UsageError.message : UsageError → String
  | .missingCommand => "a command is needed: fit, score, table or presets"
  | .unknownCommand word => s!"unrecognized command '{word}'"
  | .unexpected argument => s!"unexpected argument '{argument}'"
  | .missingValue name => s!"a value is required for '--{name.long}'"
  | .needlessValue name => s!"'--{name.long}' takes no value"
  | .repeated name => s!"'--{name.long}' cannot be used multiple times"
  | .missing name => s!"'--{name.long}' is required"
  | .conflict first second => s!"'--{first.long}' cannot be used with '--{second.long}'"
  | .badValue name value => s!"invalid value '{value}' for '--{name.long}'"
  | .helpWanted => "help"
  | .versionWanted => "version"

namespace Options

/-- Whether an argument is taken for an option where a value is expected. A lone
    dash is a value. -/
def isOption (argument : String) : Bool :=
  argument.startsWith "-" && argument != "-"

/-- An option with what follows its name in the same argument. -/
structure Head where
  name : OptionName
  value? : Option String

/-- Takes an argument that begins with two dashes apart. -/
def longHead (allowed : List OptionName) (argument : String) : Except UsageError Head :=
  let body := argument.toList.drop 2
  let (name, value?) :=
    match Text.splitAt? '=' body with
    | some (name, value) => (name, some (String.ofList value))
    | none => (body, none)
  match allowed.find? (·.long.toList == name) with
  | some found => .ok ⟨found, value?⟩
  | none => if argument == "--help" then .error .helpWanted else .error (.unexpected argument)

/-- Takes an argument that begins with one dash apart. Behind the letter the value
    may stand at once or behind `=`. -/
def shortHead (allowed : List OptionName) (argument : String) : Except UsageError Head :=
  match argument.toList.drop 1 with
  | [] => .error (.unexpected argument)
  | letter :: rest =>
      let value? :=
        match rest with
        | [] => none
        | '=' :: value => some (String.ofList value)
        | value => some (String.ofList value)
      match allowed.find? (·.short? == some letter) with
      | some found => .ok ⟨found, value?⟩
      | none => if letter == 'h' then .error .helpWanted else .error (.unexpected argument)

/-- Takes an argument apart. One without a dash has no place on a command line. -/
def head (allowed : List OptionName) (argument : String) : Except UsageError Head :=
  if argument.startsWith "--" then longHead allowed argument
  else if isOption argument then shortHead allowed argument
  else .error (.unexpected argument)

/-- Takes up the options of a command, each by `add`. Two dashes alone end them, and
    nothing may follow. -/
def scan {σ : Type} (allowed : List OptionName) (add : σ → OptionName → String → Except UsageError σ)
    (state : σ) : List String → Except UsageError σ
  | [] => .ok state
  | "--" :: [] => .ok state
  | "--" :: extra :: _ => .error (.unexpected extra)
  | argument :: rest => do
      let ⟨name, value?⟩ ← head allowed argument
      match name.takesValue, value? with
      | true, some value => scan allowed add (← add state name value) rest
      | false, none => scan allowed add (← add state name "") rest
      | false, some _ => throw (.needlessValue name)
      | true, none =>
          match rest with
          | [] => throw (.missingValue name)
          | value :: rest =>
              if isOption value then
                throw (.missingValue name)
              scan allowed add (← add state name value) rest

end Options

end WaveBus
