import WaveBus.Proofs.Bus.Alike

/-! # The strength of the top bit

The strength of the top bit is seen through that bit alone. Where the bit is clear, a finite
strength leaves a zero on the top line, and a strength of zero leaves one there in any case. Its
sign goes through a blend and through the mixing without being noticed, so the lower half of a
table is the same for all finite strengths, and for a strength of zero the upper half is the
lower half again.
-/

namespace WaveBus

namespace Bus.Direct

open Single (Alike)

variable {wave : Wave} {params other : Params} {old new : ℕ → Float32} {accumulator word : UInt16}

theorem LinesAlike.blend (h : LinesAlike old new) (share : Float32) :
    LinesAlike (blend old share) (blend new share) := by
  intro i hi
  cases i with
  | zero => exact (h 0 hi).mul_right share
  | succ i => exact ((h i (by omega)).mul_right _).add ((h (i + 1) hi).mul_right share)

/-- Accumulators with the same lower bits, and nothing on the top line. -/
theorem scaled_alike (lower : ∀ i < 11, accumulator.toNat.testBit i = word.toNat.testBit i)
    (top : scaled params accumulator 11 == 0.0) (top' : scaled other word 11 == 0.0) :
    LinesAlike (scaled params accumulator) (scaled other word) := by
  intro i hi
  rcases Nat.lt_or_eq_of_le (Nat.le_of_lt_succ hi) with below | rfl
  · apply Alike.of_eq
    rw [scaled_of_lt params accumulator below, scaled_of_lt other word below, lower i below]
  · exact .zeros top top'

theorem top_of_clear (finite : params.topBit.isFinite = true)
    (clear : accumulator.toNat.testBit 11 = false) : scaled params accumulator 11 == 0.0 := by
  have off : bit accumulator 11 == 0.0 := by
    rw [bit_eq_level accumulator (by decide), clear]
    decide
  rw [scaled, if_pos rfl]
  exact Single.mul_zero_of_isFinite (inUnit_bit accumulator 11).isFinite finite (.inl off)

theorem top_of_zero (zero : params.topBit == 0.0) (accumulator : UInt16) :
    scaled params accumulator 11 == 0.0 := by
  rw [scaled, if_pos rfl]
  exact Single.mul_zero_of_isFinite (inUnit_bit accumulator 11).isFinite
    (Single.isFinite_of_zero zero) (.inr zero)

/-- A fold would take its direction from the top bit. -/
theorem drive_alike (unfolded : wave ≠ .pulseTriangle) (share : params.stMix = other.stMix)
    (levels : LinesAlike (scaled params accumulator) (scaled other word)) :
    LinesAlike (drive wave params accumulator) (drive wave other word) := by
  cases wave with
  | pulseTriangle => exact absurd rfl unfolded
  | pulseSaw => exact levels
  | sawTriangle | pulseSawTriangle =>
      rw [drive_of_blends params accumulator (by decide), drive_of_blends other word (by decide),
        ← share]
      exact levels.blend params.stMix

theorem sample_of_top (unfolded : wave ≠ .pulseTriangle) (same : params.MixAlike other)
    (share : params.stMix = other.stMix)
    (lower : ∀ i < 11, accumulator.toNat.testBit i = word.toNat.testBit i)
    (top : scaled params accumulator 11 == 0.0) (top' : scaled other word 11 == 0.0) :
    sample wave params accumulator = sample wave other word :=
  sample_of_alike same Iff.rfl (drive_alike unfolded share (scaled_alike lower top top'))

theorem testBit_add_half (lower : accumulator < 2048) {i : ℕ} (hi : i < 11) :
    (accumulator + 2048).toNat.testBit i = accumulator.toNat.testBit i := by
  have bound : accumulator.toNat < 2048 := lower
  have sum : (accumulator + 2048).toNat = 2 ^ 11 + accumulator.toNat := by
    rw [UInt16.toNat_add]
    show (accumulator.toNat + 2048) % 2 ^ 16 = _
    omega
  rw [sum, Nat.testBit_two_pow_add_gt hi]

end Bus.Direct

/-- Below the middle of the ramp a finite strength of the top bit has no effect, and with a
strength of zero the upper half of the ramp sounds like the lower one. -/
theorem topBit_acts_on_top {wave : Wave} (unfolded : wave ≠ .pulseTriangle) {params : Params}
    (finite : params.topBit.isFinite = true) {v : UInt16} (lower : v < 2048) :
    let silent := { params with topBit := 0.0 }
    (Bus.make wave params).sample v = (Bus.make wave silent).sample v ∧
    (Bus.make wave params).sample v = (Bus.make wave silent).sample (v + 2048) ∧
    (∀ t : Float32, t.isFinite = true →
      (render wave { params with topBit := t }).get v = (render wave params).get v) ∧
    (params.topBit == 0.0 → (render wave params).get (v + 2048) = (render wave params).get v) := by
  intro silent
  have clear : v.toNat.testBit 11 = false := Nat.testBit_lt_two_pow (i := 11) lower
  have top := Bus.Direct.top_of_clear finite clear
  have zero : silent.topBit == 0.0 := by
    show (0.0 : Float32) == 0.0
    decide
  have repeated : ∀ i < 11, v.toNat.testBit i = (v + 2048).toNat.testBit i :=
    fun i hi => (Bus.Direct.testBit_add_half lower hi).symm
  simp only [get_render, Bus.Direct.sample_make]
  refine ⟨?_, ?_, fun t finite_t => ?_, fun zero' => ?_⟩
  · exact Bus.Direct.sample_of_top unfolded ⟨rfl, rfl, rfl⟩ rfl (fun _ _ => rfl) top
      (Bus.Direct.top_of_zero zero v)
  · exact Bus.Direct.sample_of_top unfolded ⟨rfl, rfl, rfl⟩ rfl repeated top
      (Bus.Direct.top_of_zero zero (v + 2048))
  · exact Bus.Direct.sample_of_top unfolded ⟨rfl, rfl, rfl⟩ rfl (fun _ _ => rfl)
      (Bus.Direct.top_of_clear finite_t clear) top
  · exact Bus.Direct.sample_of_top unfolded ⟨rfl, rfl, rfl⟩ rfl (fun i hi => (repeated i hi).symm)
      (Bus.Direct.top_of_zero zero' (v + 2048)) (Bus.Direct.top_of_zero zero' v)

/-- A strength below zero leaves a negative zero on the top line. -/
theorem topBit_acts_on_top_0x7FF :
    let params : Params := ⟨0.5, 0.75, -3.5, 3e38, 0.25⟩
    let silent : Params := ⟨0.5, 0.75, 0.0, 3e38, 0.25⟩
    (Wave.pulseSawTriangle ≠ .pulseTriangle ∧ params.topBit.isFinite = true ∧
      silent.topBit == 0.0 ∧ (0x7FF : UInt16) < 2048) ∧
    (Bus.make .pulseSawTriangle params).sample 0x7FF =
      (Bus.make .pulseSawTriangle silent).sample 0x7FF ∧
    (Bus.make .pulseSawTriangle params).sample 0x7FF =
      (Bus.make .pulseSawTriangle silent).sample 0xFFF ∧
    (render .pulseSawTriangle params).get 0x7FF = (render .pulseSawTriangle silent).get 0x7FF ∧
    (render .pulseSawTriangle silent).get 0xFFF = (render .pulseSawTriangle silent).get 0x7FF := by
  intro params silent
  have unfolded : Wave.pulseSawTriangle ≠ .pulseTriangle := by decide
  have finite : params.topBit.isFinite = true := by decide
  have finite' : silent.topBit.isFinite = true := by decide
  have zero : silent.topBit == 0.0 := by decide
  have lower : (0x7FF : UInt16) < 2048 := by decide
  obtain ⟨same, above, -⟩ := topBit_acts_on_top unfolded finite lower
  obtain ⟨-, -, halves, repeated⟩ := topBit_acts_on_top unfolded finite' lower
  exact ⟨⟨unfolded, finite, zero, lower⟩, same, above, halves params.topBit finite, repeated zero⟩

end WaveBus
