import WaveBus.Params
import WaveBus.Wave

/-! # The output bus

Twelve lines carry the bits of the phase accumulator. Depending on the wave the
lines are folded or blended first. Then every line settles halfway between its
own level and the average of all lines, each weighted by how near it is; a pulse
joins the average as a line above the top one. The upper eight lines, compared
with the bias, are the sample.

Arithmetic is single precision throughout, every operation rounded, in the order
in which the sums are written.
-/

namespace WaveBus

/-- The levels of the twelve lines, the lowest bit first. -/
abbrev Lines := Vector Float32 12

namespace Lines

def top : Fin 12 := 11

/-- The lines as the accumulator drives them: one for a set bit, zero for a clear one. -/
def ofAccumulator (accumulator : UInt16) : Lines :=
  Vector.ofFn fun i => if accumulator.toNat.testBit i then 1.0 else 0.0

/-- Replaces lines `n`, …, 1 by `level below own`, from the upper end down, so that
    each still sees the line below it unchanged. -/
def raise (level : Float32 → Float32 → Float32) (lines : Lines) : (n : Nat) → n < 12 → Lines
  | 0, _ => lines
  | n + 1, h => raise level (lines.set (n + 1) (level lines[n] lines[n + 1])) n (by omega)

/-- Folds a ramp into a triangle: each line takes the level of the line below it,
    turned over in the upper half of the ramp. The lowest line is off. -/
def fold (lines : Lines) (upper : Bool) : Lines :=
  (lines.raise (fun below _ => if upper then 1.0 - below else below) 11 (by decide)).set 0 0.0

/-- Blends each line with the line below it. A `share` of its own level is kept;
    nothing lies below the lowest line. -/
def blend (lines : Lines) (share : Float32) : Lines :=
  let raised := lines.raise (fun below own => below * (1.0 - share) + own * share) 11 (by decide)
  raised.set 0 (raised[0] * share)

end Lines

/-- A bus with its parameters, and the weights of the lines by distance. -/
structure Bus where
  wave : Wave
  params : Params
  /-- The pull of a line `k` lines away. -/
  weights : Vector Float32 13

namespace Bus

/-- The pull of a line `k` lines away: one at home, and falling with the square of `k`. -/
def weight (distance : Float32) (k : Nat) : Float32 :=
  1.0 / (1.0 + (k * k).toUInt64.toFloat32 * distance)

def make (wave : Wave) (params : Params) : Bus where
  wave := wave
  params := params
  weights := Vector.ofFn fun k => weight params.distance k

/-- How many lines apart two lines are. -/
def gap (s c : Fin 12) : Fin 13 := ⟨(s - c : Nat) + (c - s : Nat), by omega⟩

/-- How far a line is below the pulse line. -/
def pulseGap (s : Fin 12) : Fin 13 := ⟨12 - s, by omega⟩

/-- The weights of all lines as line `s` sees them, added up. -/
def totalWeight (bus : Bus) (s : Fin 12) : Float32 :=
  let own := Fin.foldl 12 (fun sum c => sum + bus.weights[gap s c]) (0.0 : Float32)
  if bus.wave.pulses then own + bus.weights[pulseGap s] else own

/-- The weighted levels of all lines as line `s` sees them, added up. -/
def totalPull (bus : Bus) (lines : Lines) (s : Fin 12) : Float32 :=
  let own := Fin.foldl 12 (fun sum c => sum + lines[c] * bus.weights[gap s c]) (0.0 : Float32)
  if bus.wave.pulses then own + bus.params.pulseStrength * bus.weights[pulseGap s] else own

def settle (bus : Bus) (lines : Lines) (s : Fin 12) : Float32 :=
  (lines[s] + bus.totalPull lines s / bus.totalWeight s) * 0.5

/-- The lines as the wave drives them. Only the top line has a level of its own. -/
def drive (bus : Bus) (accumulator : UInt16) : Lines :=
  let bits := Lines.ofAccumulator accumulator
  let lines := bits.set Lines.top (bits[Lines.top] * bus.params.topBit)
  if bus.wave.folds then Lines.fold lines (accumulator.toNat.testBit Lines.top)
  else if bus.wave.blends then Lines.blend lines bus.params.stMix
  else lines

/-- The line that feeds bit `k` of a sample. -/
def outputLine (k : Fin 8) : Fin 12 := ⟨4 + k, by omega⟩

/-- The sample of a level for each line: bit `k` is set if the line that feeds it is above the bias. -/
def quantize (bias : Float32) (level : Fin 12 → Float32) : UInt8 :=
  Fin.foldl 8 (fun byte k => if bias < level (outputLine k) then byte ||| 1 <<< UInt8.ofNat k else byte) 0

/-- The sample for a value of the accumulator, of which the lower twelve bits count. -/
def sample (bus : Bus) (accumulator : UInt16) : UInt8 :=
  let lines := bus.drive accumulator
  quantize bus.params.bias (bus.settle lines)

end Bus

end WaveBus
