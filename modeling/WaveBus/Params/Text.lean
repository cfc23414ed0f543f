import WaveBus.Fault
import WaveBus.Literal
import WaveBus.Params
import WaveBus.Style
import WaveBus.Text.Blank
import WaveBus.Text.Line

/-! # Parameters as text

A parameter set is written as five lines `name = value`, with digits that read
back exactly. Reading is more generous: blank lines and `//` comments are passed
over, a name may stand without its underscore and behind `bestparams.`, a value
may end in an `f` and in semicolons. A later line wins over an earlier one, and a
field that no line names is zero.
-/

namespace WaveBus.Params

/-- The name under which a field is written. -/
def Field.name : Field → String
  | .bias => "bias"
  | .pulseStrength => "pulse_strength"
  | .topBit => "top_bit"
  | .distance => "distance"
  | .stMix => "st_mix"

def Field.ofName? (name : String) : Option Field :=
  match name with
  | "bias" => some .bias
  | "pulse_strength" | "pulsestrength" => some .pulseStrength
  | "top_bit" | "topbit" => some .topBit
  | "distance" => some .distance
  | "st_mix" | "stmix" => some .stMix
  | _ => none

/-- Sizes from `10 ^ -4` to below `10 ^ 16` are written without an exponent, and a
    whole number keeps its point. -/
def style : Style := ⟨fun k => -4 ≤ k && k < 16, true⟩

/-- The line of one field, with its line end. -/
def Field.line (field : Field) (value : Float32) : String :=
  field.name ++ " = " ++ String.ofList (style.write value) ++ "\n"

def text (params : Params) : String :=
  String.join (Field.all.map fun field => field.line (params.get field))

/-- A name without the `bestparams.` that may stand in front of it. -/
def bareName (key : List Char) : List Char :=
  Text.dropStart "bestparams.".toList (Text.trim key)

/-- Takes off an `f` that ends a number. Behind a letter it belongs to a word such as `inf`. -/
def dropSuffix (value : List Char) : List Char :=
  match value.reverse with
  | 'f' :: c :: before => if c.isDigit || c == '.' then (c :: before).reverse else value
  | _ => value

/-- A value without the semicolons and the suffix that may end it. -/
def bareValue (value : List Char) : List Char :=
  dropSuffix (Text.trim (Text.dropEndWhile (· == ';') (Text.trim value)))

/-- Whether a trimmed line says nothing. -/
def isRemark (line : List Char) : Bool :=
  line.isEmpty || ['/', '/'].isPrefixOf line

/-- What a trimmed line that is no remark assigns. -/
def assignment (line : List Char) : Except Defect (Field × Float32) :=
  match Text.splitAt? '=' line with
  | none => .error (.noAssignment (String.ofList line))
  | some (key, value) =>
      let name := String.ofList (bareName key)
      match Field.ofName? name with
      | none => .error (.unknownParameter name)
      | some field =>
          match Literal.read? (bareValue value) with
          | none => .error (.notNumber (String.ofList (bareValue value)))
          | some literal => .ok (field, literal.toSingle)

def readLine (params : Params) (line : List Char) : Except Defect Params :=
  let trimmed := Text.trim line
  if isRemark trimmed then
    .ok params
  else
    (assignment trimmed).map fun (field, value) => params.set field value

/-- Applies lines of which the first has the given number. The first bad one ends it. -/
def readLines (params : Params) (number : Nat) : List (List Char) → Except Fault Params
  | [] => .ok params
  | line :: rest =>
      match params.readLine line with
      | .ok next => next.readLines (number + 1) rest
      | .error defect => .error (.malformed number defect)

def parse (text : List Char) : Except Fault Params :=
  zero.readLines 1 (Text.lines text)

end WaveBus.Params
