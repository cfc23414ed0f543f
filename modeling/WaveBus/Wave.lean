import WaveBus.Fault
import WaveBus.Numeral
import WaveBus.Text.Blank

/-! # Combined waves

A voice can put several of its generators on the output bus at once. The code of
such a wave is a set of bits: 1 triangle, 2 sawtooth, 4 pulse. Four of the sets
pull the bus lines against each other, and those are the waves here.
-/

namespace WaveBus

/-- A set of generators that share the bus. -/
inductive Wave where
  | sawTriangle
  | pulseTriangle
  | pulseSaw
  | pulseSawTriangle
  deriving Repr, DecidableEq

namespace Wave

def all : List Wave := [.sawTriangle, .pulseTriangle, .pulseSaw, .pulseSawTriangle]

/-- The bits of the generators on the bus. -/
def code : Wave → Nat
  | .sawTriangle => 3
  | .pulseTriangle => 5
  | .pulseSaw => 6
  | .pulseSawTriangle => 7

/-- The triangle without the sawtooth: the accumulator is folded about its middle. -/
def folds (wave : Wave) : Bool := wave.code &&& 3 == 1

/-- Sawtooth and triangle together: each line is blended with the one below it. -/
def blends (wave : Wave) : Bool := wave.code &&& 3 == 3

/-- The pulse drives a thirteenth line above the others. -/
def pulses (wave : Wave) : Bool := wave.code > 4

def text (wave : Wave) : String := toString wave.code

instance : ToString Wave := ⟨text⟩

def ofCode (code : Nat) : Except Fault Wave :=
  match all.find? (·.code == code) with
  | some wave => .ok wave
  | none => .error (.invalidWave (toString code))

@[simp] theorem ofCode_code (wave : Wave) : ofCode wave.code = .ok wave := by
  cases wave <;> rfl

/-- Reads a code. A text that is no numeral for a byte is quoted as it stands;
    of one that is, the value. -/
def parse (text : List Char) : Except Fault Wave :=
  let trimmed := Text.trim text
  match Numeral.readBelow? 256 trimmed with
  | some code => ofCode code
  | none => .error (.invalidWave (String.ofList trimmed))

end Wave

end WaveBus
