import WaveBus.Proofs.Bus.Digital
import WaveBus.Proofs.Single.Zero

/-! # Lines up to the signs of zeros

Mixing sees nothing of the sign of a zero: lines that differ in such signs have products,
averages and levels that differ in such signs at most, however large the weights are, and are
compared with the bias alike. So a bus has the same sample for both. Lines that carry the same
word differ in no more than that.
-/

namespace WaveBus

open Single (Alike)

/-- The same in the fields that mixing and the comparison with the bias look at. -/
structure Params.MixAlike (params other : Params) : Prop where
  bias : params.bias = other.bias
  pulseStrength : params.pulseStrength = other.pulseStrength
  distance : params.distance = other.distance

namespace Bus.Direct

variable {wave other : Wave} {params seed : Params} {old new : ℕ → Float32} {s : ℕ}
  {accumulator word : UInt16}

/-- Twelve lines that differ at most in the signs of zeros. -/
def LinesAlike (old new : ℕ → Float32) : Prop := ∀ i < 12, Alike (old i) (new i)

theorem LinesAlike.trans {last : ℕ → Float32} (h : LinesAlike old new) (k : LinesAlike new last) :
    LinesAlike old last := fun i hi => (h i hi).trans (k i hi)

/-! ## Mixing -/

/-- The weighted levels are alike term by term, and the pulse adds the same to both. -/
theorem pull_alike (same : params.MixAlike seed) (lines : LinesAlike old new) (s : ℕ) :
    Alike (pull (inputs wave params old s)) (pull (inputs wave seed new s)) := by
  have products : List.Forall₂ Alike ((inputs wave params old s).map fun p => p.1 * p.2)
      ((inputs wave seed new s).map fun p => p.1 * p.2) := by
    rw [inputs, inputs, List.map_append, List.map_append, List.map_map, List.map_map,
      ← same.pulseStrength, ← same.distance]
    refine List.rel_append ?_ (List.forall₂_same.2 fun x _ => .refl x)
    rw [List.forall₂_map_left_iff, List.forall₂_map_right_iff, List.forall₂_same]
    exact fun c hc => (lines c (List.mem_range.1 hc)).mul_right _
  exact Alike.foldl_add products (.refl 0.0)

theorem mix_alike (same : params.MixAlike seed) (lines : LinesAlike old new) (hs : s < 12) :
    Alike (mix wave params old s) (mix wave seed new s) := by
  -- both pulls are divided by the same weights, which may add up to zero or to no number
  have averages : Alike (average (inputs wave params old s)) (average (inputs wave seed new s)) := by
    rw [average_eq, average_eq, ← total_congr wave same.distance old new]
    exact (pull_alike same lines s).div_right _
  rw [mix, mix]
  exact ((lines s hs).add averages).mul_right 0.5

/-- All that mixing takes from the wave is whether it has a pulse. -/
theorem mix_of_pulses (pulses : wave.code > 4 ↔ other.code > 4) :
    mix wave params old s = mix other params old s := by
  rw [mix, mix, inputs, inputs, if_congr pulses rfl rfl]

theorem sample_of_alike (same : params.MixAlike seed) (pulses : wave.code > 4 ↔ other.code > 4)
    (lines : LinesAlike (drive wave params accumulator) (drive other seed word)) :
    sample wave params accumulator = sample other seed word := by
  have bits : ∀ k : Fin 8, decide (params.bias < mix wave params (drive wave params accumulator)
      (k + 4)) = decide (seed.bias < mix other seed (drive other seed word) (k + 4)) := by
    intro k
    rw [decide_eq_decide, same.bias, ← mix_of_pulses pulses]
    exact (mix_alike same lines (by omega)).lt_iff
  simp only [sample, bits]

/-! ## Words -/

theorem scaled_of_lt (params : Params) (accumulator : UInt16) {i : ℕ} (hi : i < 11) :
    scaled params accumulator i = level (accumulator.toNat.testBit i) := by
  rw [scaled, if_neg hi.ne, bit_eq_level accumulator (by omega)]

theorem Shows.alike {x y : Float32} {on : Bool} (hx : Shows x on) (hy : Shows y on) : Alike x y := by
  cases on with
  | true => exact .of_eq (hx.eq_one.trans hy.eq_one.symm)
  | false =>
      have zero : ∀ {x : Float32}, Shows x false → x == 0.0 := by
        intro x h
        cases h <;> decide
      exact .zeros (zero hx) (zero hy)

theorem Carries.alike (h : Carries old word) (k : Carries new word) : LinesAlike old new :=
  fun i hi => (h i hi).alike (k i hi)

/-- Only the lower twelve bits of a word are carried. -/
theorem Carries.low (h : Carries old word) : Carries old (word &&& 0xFFF) := by
  intro i hi
  rw [testBit_low, decide_eq_true hi, Bool.true_and]
  exact h i hi

/-- A wave whose lines carry a word sounds like a sawtooth with a pulse there, with the top line
as strong as the others. -/
theorem sample_eq_pulseSaw (pulses : wave.code > 4)
    (lines : LinesAlike (drive wave params accumulator) old) (carries : Carries old word) :
    sample wave params accumulator =
      sample .pulseSaw { params with topBit := 1.0 } (word &&& 0xFFF) := by
  have saw : Carries (drive .pulseSaw { params with topBit := 1.0 } (word &&& 0xFFF))
      (word &&& 0xFFF) := carries_levels fun _ hi => scaled_eq_level rfl _ hi
  have same : params.MixAlike { params with topBit := 1.0 } := ⟨rfl, rfl, rfl⟩
  exact sample_of_alike same (iff_of_true pulses (by decide)) (lines.trans (carries.low.alike saw))

/-! ## Tables -/

theorem drive_low (wave : Wave) (params : Params) (accumulator : UInt16) :
    drive wave params (.ofNat (accumulator.toNat % 4096)) = drive wave params accumulator := by
  have low : (UInt16.ofNat (accumulator.toNat % 4096)).toNat = accumulator.toNat % 4096 := by
    rw [UInt16.toNat_ofNat']
    omega
  have bits : bit (.ofNat (accumulator.toNat % 4096)) = bit accumulator := by
    funext i
    rw [bit, bit, low, Nat.mod_mod]
  have levels : scaled params (.ofNat (accumulator.toNat % 4096)) = scaled params accumulator := by
    funext i
    rw [scaled, scaled, bits]
  have upper : (accumulator.toNat % 2 ^ 12).testBit 11 = accumulator.toNat.testBit 11 := by
    rw [Nat.testBit_mod_two_pow, decide_eq_true (by decide), Bool.true_and]
  rw [drive, drive, levels, low, show 4096 = 2 ^ 12 from rfl, upper]

end Bus.Direct

/-- A table is looked up where the bus would be read. -/
theorem get_render (wave : Wave) (params : Params) (accumulator : UInt16) :
    (render wave params).get accumulator = (Bus.make wave params).sample accumulator := by
  rw [render, Table.get_ofFn, Bus.Direct.sample_make, Bus.Direct.sample_make, Bus.Direct.sample,
    Bus.Direct.sample, tableSize, Bus.Direct.drive_low]

end WaveBus
