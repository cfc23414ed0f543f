import WaveBus.Chip
import WaveBus.Params.Text
import WaveBus.Text.Column
import WaveBus.Wave

/-! # Recorded fits

The best parameters known for the chips that were sampled, as starting points for
further search. The score of a fit was measured against the chip's own capture.
-/

namespace WaveBus

/-- A recorded fit. -/
structure Preset where
  chip : Chip
  wave : Wave
  score : Nat
  params : Params

namespace Preset

private def chipD : Chip := ⟨3⟩
private def chipE : Chip := ⟨4⟩
private def chipG : Chip := ⟨6⟩
private def chipV : Chip := ⟨21⟩
private def chipW : Chip := ⟨22⟩

/-- All recorded fits, by chip and wave. -/
def all : List Preset :=
  [⟨chipD, .sawTriangle, 280, ⟨0.9347278, 0.0, 0.0, 1.017948, 0.5655234⟩⟩,
   ⟨chipD, .pulseTriangle, 600, ⟨0.8931507, 2.483499, 0.0, 0.03339716, 0.0⟩⟩,
   ⟨chipD, .pulseSaw, 613, ⟨0.8869214, 2.440879, 1.680824, 0.02267573, 0.0⟩⟩,
   ⟨chipD, .pulseSawTriangle, 44, ⟨0.9266459, 0.7393153, 0.0, 0.0598464, 0.1851717⟩⟩,
   ⟨chipE, .sawTriangle, 144, ⟨0.9689716, 0.0, 0.0, 1.92, 0.718864⟩⟩,
   ⟨chipE, .pulseTriangle, 166, ⟨0.9161022, 1.879311, 0.0, 0.02331964, 0.0⟩⟩,
   ⟨chipE, .pulseSaw, 10, ⟨0.879145, 1.30156, 0.0, 0.006426161, 0.0⟩⟩,
   ⟨chipE, .pulseSawTriangle, 2, ⟨0.9493611, 0.6681492, 0.0, 0.04524437, 0.1509331⟩⟩,
   ⟨chipG, .sawTriangle, 252, ⟨0.9393118, 0.0, 0.0, 1.038816, 0.5292149⟩⟩,
   ⟨chipG, .pulseTriangle, 360, ⟨0.8924618, 2.01122, 0.0, 0.03133072, 0.0⟩⟩,
   ⟨chipG, .pulseSaw, 668, ⟨0.8952018, 2.213601, 1.705941, 0.01260567, 0.0⟩⟩,
   ⟨chipG, .pulseSawTriangle, 14, ⟨0.9322616, 0.6173857, 0.0, 0.06722359, 0.2427691⟩⟩,
   ⟨chipV, .sawTriangle, 314, ⟨0.9738218, 0.0, 0.992848, 2.547508, 0.9599405⟩⟩,
   ⟨chipV, .pulseTriangle, 628, ⟨0.9236207, 2.19129, 0.0, 0.1108298, 0.0⟩⟩,
   ⟨chipV, .pulseSaw, 593, ⟨0.9248214, 2.232846, 0.9491023, 0.1313893, 0.0⟩⟩,
   ⟨chipV, .pulseSawTriangle, 168, ⟨0.9845552, 1.380867, 0.9621406, 1.592066, 0.9472086⟩⟩,
   ⟨chipW, .sawTriangle, 319, ⟨0.9686383, 0.0, 0.9963791, 2.21016, 0.8968357⟩⟩,
   ⟨chipW, .pulseTriangle, 784, ⟨0.9069195, 2.203437, 0.0, 0.129717, 0.0⟩⟩,
   ⟨chipW, .pulseSaw, 764, ⟨0.9074827, 2.184185, 0.9717882, 0.1274436, 0.0⟩⟩,
   ⟨chipW, .pulseSawTriangle, 213, ⟨0.9882526, 1.729343, 0.9398671, 2.652093, 0.9998723⟩⟩]

def find? (chip : Chip) (wave : Wave) : Option Preset :=
  all.find? fun preset => preset.chip == chip && preset.wave == wave

/-- The widths of the columns of the listing. The wave is not padded below its heading. -/
def columns (chip wave score bias pulse topBit distance stMix : String) : String :=
  Text.left 4 chip ++ " " ++ wave ++ " " ++ Text.right 6 score ++ "  " ++ Text.right 10 bias ++ " "
    ++ Text.right 10 pulse ++ " " ++ Text.right 10 topBit ++ " " ++ Text.right 12 distance ++ " "
    ++ Text.right 10 stMix ++ "\n"

/-- A number of the listing: its shortest digits without an exponent. -/
def cell (value : Float32) : String := String.ofList (Style.plain.write value)

def row (preset : Preset) : String :=
  columns preset.chip.letter.toString preset.wave.text (toString preset.score)
    (cell preset.params.bias) (cell preset.params.pulseStrength) (cell preset.params.topBit)
    (cell preset.params.distance) (cell preset.params.stMix)

def listing : String :=
  columns "chip" "wave" "score" "bias" "pulse" "top_bit" "distance" "st_mix"
    ++ String.join (all.map row)

end Preset

end WaveBus
