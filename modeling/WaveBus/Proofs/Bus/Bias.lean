import WaveBus.Proofs.Bus.Coupling
import WaveBus.Proofs.Score.Complement

/-! # Raising the bias

The bias is looked at in the last step only, where it is compared with levels that do not depend
on it. So a higher bias clears bits and sets none, whatever the other parameters are: a level
that is no number is above neither bias. Against a table of zeros the score can only fall then,
and against a table of ones it can only rise.
-/

namespace WaveBus

namespace Table

variable {table other : Table}

theorem bit_zeros (place : Place) : (ofFn fun _ => 0x00).bit place = false := by
  simp [bit_eq_testBit, ofFn]

theorem complement_ofFn (sample : UInt16 → UInt8) :
    (ofFn sample).complement = ofFn fun accumulator => ~~~ sample accumulator := by
  simp only [complement, ofFn, Vector.map_ofFn]
  rfl

/-- A table is as far from the zeros as it has bits. -/
theorem distance_zeros_mono (h : ∀ place, table.bit place = true → other.bit place = true) :
    distance table (ofFn fun _ => 0x00) ≤ distance other (ofFn fun _ => 0x00) := by
  simp only [distance, hammingDist, bit_zeros, ne_eq, Bool.not_eq_false]
  exact Finset.card_le_card (Finset.monotone_filter_right _ fun place _ => h place)

end Table

namespace Bus.Direct

variable {params : Params} {bias : Float32}

/-- All but the comparison at the end is the same for both. -/
theorem testBit_sample_of_bias_le (le : params.bias ≤ bias) (wave : Wave) (accumulator : UInt16)
    {k : ℕ}
    (set : (sample wave { params with bias := bias } accumulator).toNat.testBit k = true) :
    (sample wave params accumulator).toNat.testBit k = true := by
  refine testBit_byte_mono (fun k above => ?_) set
  rw [decide_eq_true_iff] at above ⊢
  exact Single.lt_of_le_of_lt le above

end Bus.Direct

variable {params : Params} {bias : Float32}

theorem bit_render_of_bias_le (le : params.bias ≤ bias) (wave : Wave) (place : Table.Place)
    (set : (render wave { params with bias := bias }).bit place = true) :
    (render wave params).bit place = true := by
  rw [Table.bit_eq_testBit, samples_render, Bus.Direct.sample_make] at set ⊢
  exact Bus.Direct.testBit_sample_of_bias_le le wave _ set

theorem score_zeros_add_ones (wave : Wave) (params : Params) :
    score wave params (.ofFn fun _ => 0x00) + score wave params (.ofFn fun _ => 0xFF) =
      maxScore := by
  have turned : (Table.ofFn fun _ => 0x00).complement = Table.ofFn fun _ => 0xFF :=
    Table.complement_ofFn _
  simp only [score_eq_distance, ← turned]
  exact Table.distance_complement _ _

/-- With a higher bias no bit of a sample is set that was clear, so scores against zeros do not
rise and scores against ones do not fall. -/
theorem sample_anti_bias (le : params.bias ≤ bias) (wave : Wave) :
    let raised := { params with bias := bias }
    (∀ (accumulator : UInt16) (k : ℕ),
      ((Bus.make wave raised).sample accumulator).toNat.testBit k = true →
      ((Bus.make wave params).sample accumulator).toNat.testBit k = true) ∧
    score wave raised (.ofFn fun _ => 0x00) ≤ score wave params (.ofFn fun _ => 0x00) ∧
    score wave params (.ofFn fun _ => 0xFF) ≤ score wave raised (.ofFn fun _ => 0xFF) := by
  intro raised
  have zeros : score wave raised (.ofFn fun _ => 0x00) ≤
      score wave params (.ofFn fun _ => 0x00) := by
    simp only [score_eq_distance]
    exact Table.distance_zeros_mono (bit_render_of_bias_le le wave)
  have ones := score_zeros_add_ones wave params
  have ones' := score_zeros_add_ones wave raised
  refine ⟨fun accumulator k set => ?_, zeros, by omega⟩
  rw [Bus.Direct.sample_make] at set ⊢
  exact Bus.Direct.testBit_sample_of_bias_le le wave accumulator set

/-- An infinite pulse is above a huge bias, and a NaN in a field without use is no
obstacle. -/
theorem sample_anti_bias_of_infinite_pulse :
    let params : Params := ⟨-0.0, .ofBits 0x7F800000, 1.0, 0.5, .ofBits 0x7FC00000⟩
    let raised : Params := ⟨3e38, .ofBits 0x7F800000, 1.0, 0.5, .ofBits 0x7FC00000⟩
    params.bias ≤ raised.bias ∧
    ((Bus.make .pulseSaw raised).sample 0x7FF).toNat.testBit 7 = true ∧
    ((Bus.make .pulseSaw params).sample 0x7FF).toNat.testBit 7 = true ∧
    score .pulseSaw raised (.ofFn fun _ => 0x00) ≤ score .pulseSaw params (.ofFn fun _ => 0x00) ∧
    score .pulseSaw params (.ofFn fun _ => 0xFF) ≤ score .pulseSaw raised (.ofFn fun _ => 0xFF) := by
  intro params raised
  have le : params.bias ≤ 3e38 := by decide +kernel
  have set : ((Bus.make .pulseSaw raised).sample 0x7FF).toNat.testBit 7 = true := by decide +kernel
  obtain ⟨kept, zeros, ones⟩ := sample_anti_bias le .pulseSaw
  exact ⟨le, set, kept 0x7FF 7 set, zeros, ones⟩

end WaveBus
