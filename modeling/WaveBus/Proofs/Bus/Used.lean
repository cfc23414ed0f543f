import WaveBus.Proofs.Bus.Direct
import WaveBus.Score

/-! # Fields that a wave does not use

A wave without the pulse has no pulse line, one without a blend nothing to share, and
a fold replaces the top line and is turned over by the accumulator alone. So some
fields of the parameters have no say in the samples of a wave, whatever they hold, and
parameters that agree on the others have the same table and the same scores.
-/

namespace WaveBus

/-- The fields that have no say in the samples of a wave. -/
def Wave.unused : Wave → List Params.Field
  | .sawTriangle => [.pulseStrength]
  | .pulseTriangle => [.topBit, .stMix]
  | .pulseSaw => [.stMix]
  | .pulseSawTriangle => []

namespace Params

/-- The same values in all fields that a wave uses. -/
def Agree (wave : Wave) (params other : Params) : Prop :=
  ∀ field, field ∉ wave.unused → params.get field = other.get field

namespace Agree

variable {wave : Wave} {params other : Params}

theorem bias (h : Agree wave params other) : params.bias = other.bias :=
  h .bias (by cases wave <;> decide)

theorem distance (h : Agree wave params other) : params.distance = other.distance :=
  h .distance (by cases wave <;> decide)

theorem pulseStrength (h : Agree wave params other) (pulses : wave.code > 4) :
    params.pulseStrength = other.pulseStrength := by
  apply h .pulseStrength
  cases wave with
  | sawTriangle => exact absurd pulses (by decide)
  | _ => decide

theorem topBit (h : Agree wave params other) (folds : ¬ wave.code &&& 3 = 1) :
    params.topBit = other.topBit := by
  apply h .topBit
  cases wave with
  | pulseTriangle => exact absurd rfl folds
  | _ => decide

theorem stMix (h : Agree wave params other) (blends : wave.code &&& 3 = 3) :
    params.stMix = other.stMix := by
  apply h .stMix
  cases wave with
  | sawTriangle | pulseSawTriangle => decide
  | _ => exact absurd blends (by decide)

end Agree

end Params

namespace Bus.Direct

variable {wave : Wave} {params other : Params}

/-- Below the top line no field has a say in what the accumulator drives. -/
theorem scaled_of_ne_top (params other : Params) (accumulator : UInt16) {i : Nat} (h : i ≠ 11) :
    scaled params accumulator i = scaled other accumulator i := by
  rw [scaled, if_neg h, scaled, if_neg h]

theorem drive_congr (h : Params.Agree wave params other) (accumulator : UInt16) {i : Nat}
    (hi : i < 12) : drive wave params accumulator i = drive wave other accumulator i := by
  unfold drive
  by_cases folds : wave.code &&& 3 = 1
  · have blends : ¬ wave.code &&& 3 = 3 := by omega
    simp only [if_pos folds, if_neg blends]
    -- A fold reads every line but the top one.
    cases i with
    | zero => rfl
    | succ i => rw [fold, fold, scaled_of_ne_top params other accumulator (by omega)]
  · have same : scaled params accumulator = scaled other accumulator := by
      funext i
      rw [scaled, scaled, h.topBit folds]
    simp only [if_neg folds, same]
    by_cases blends : wave.code &&& 3 = 3
    · rw [if_pos blends, if_pos blends, h.stMix blends]
    · rw [if_neg blends, if_neg blends]

theorem mix_congr (h : Params.Agree wave params other) {old new : Nat → Float32}
    (same : ∀ i < 12, old i = new i) {s : Nat} (hs : s < 12) :
    mix wave params old s = mix wave other new s := by
  have lines : (List.range 12).map (fun c => (old c, weight params.distance s c)) =
      (List.range 12).map (fun c => (new c, weight other.distance s c)) := by
    refine List.map_congr_left fun c hc => ?_
    rw [same c (List.mem_range.1 hc), h.distance]
  have seen : inputs wave params old s = inputs wave other new s := by
    rw [inputs, inputs, lines]
    by_cases pulses : wave.code > 4
    · rw [if_pos pulses, if_pos pulses, h.pulseStrength pulses, h.distance]
    · rw [if_neg pulses, if_neg pulses]
  rw [mix, mix, seen, same s hs]

theorem sample_congr (h : Params.Agree wave params other) (accumulator : UInt16) :
    sample wave params accumulator = sample wave other accumulator := by
  have mixed : ∀ k : Fin 8, mix wave params (drive wave params accumulator) (k + 4) =
      mix wave other (drive wave other accumulator) (k + 4) := fun k =>
    mix_congr h (fun i hi => drive_congr h accumulator hi) (by omega)
  simp only [sample, mixed, h.bias]

end Bus.Direct

namespace Params.Agree

variable {wave : Wave} {params other : Params}

theorem sample_eq (h : Agree wave params other) :
    (Bus.make wave params).sample = (Bus.make wave other).sample := by
  funext accumulator
  rw [Bus.Direct.sample_make, Bus.Direct.sample_make, Bus.Direct.sample_congr h]

theorem render_eq (h : Agree wave params other) : render wave params = render wave other := by
  rw [render, render, h.sample_eq]

theorem score_eq (h : Agree wave params other) (table : Table) :
    score wave params table = score wave other table := by
  simp only [score, h.sample_eq]

end Params.Agree

end WaveBus
