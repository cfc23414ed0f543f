import WaveBus.Decimal.Shortest
import WaveBus.Proofs.Rounding.Scientific
import WaveBus.Proofs.Single.Packing

/-! # Decimals read back

A decimal is read as the single nearest to its value, so how the value is split into
significand and exponent makes no difference. The shortest decimal of a single was
tried before it was chosen, or is the exact value.
-/

namespace WaveBus.Decimal

open Float.Model Float.Model.UnpackedFloat
open Rounding (Canonical nearest)

/-- The value of a decimal. -/
def value (d : Decimal) : ℚ := d.significand * 10 ^ d.exponent

theorem toSingle_eq_nearest (d : Decimal) :
    d.toSingle = .ofModel (.pack (nearest Format.binary32 .positive d.value)) := by
  have bits := Rounding.pack_ofScientific Format.binary32 (by decide) d.significand d.exponent
  rw [← Float32.toBits_inj]
  exact congrArg UInt32.ofBitVec bits

/-- Decimals of the same value are read as the same single. -/
theorem toSingle_congr {d d' : Decimal} (h : d.value = d'.value) : d.toSingle = d'.toSingle := by
  rw [toSingle_eq_nearest, toSingle_eq_nearest, h]

/-- Every single is a whole number of units. -/
theorem value_units (significand : ℕ) {exponent : ℤ} (h : -places ≤ exponent) :
    value ⟨units significand exponent, -places⟩ = significand * 2 ^ exponent := by
  have raised : (2 : ℚ) ^ (exponent + places).toNat = 2 ^ exponent * 2 ^ places := by
    rw [← zpow_natCast, Int.toNat_of_nonneg (by omega), zpow_add₀ two_ne_zero, zpow_natCast]
  have ten : (10 : ℚ) ^ places = 2 ^ places * 5 ^ places := by
    rw [← mul_pow]
    norm_num
  simp only [value, units, Nat.pow_eq, zpow_neg, zpow_natCast]
  push_cast
  rw [raised, ten]
  generalize places = n
  field_simp

theorem accept_of_onGrid? {accept : Decimal → Bool} {value dropped : ℕ} {d : Decimal}
    (h : onGrid? accept value dropped = some d) : accept d = true := by
  simp only [onGrid?] at h
  split at h
  next below =>
    split at h
    next above =>
      cases h
      rw [Bool.and_eq_true] at above
      exact above.1
    next =>
      cases h
      exact below
  next =>
    split at h
    next above =>
      cases h
      exact above
    next => cases h

/-- The shortest decimal of a single reads back. -/
theorem toSingle_shortest {target : Float32} {significand : ℕ} {exponent : ℤ}
    (positive : 0 < significand) (finite : Single.Finite significand exponent)
    (h : target = .ofModel (.pack (.finite .positive significand exponent positive))) :
    (shortest target significand exponent).toSingle = target := by
  rw [shortest]
  generalize found : (List.range enoughDigits).findSome? _ = best
  cases best with
  | none =>
      rw [Option.getD_none, toSingle_eq_nearest, value_units significand finite.le_exponent,
        Rounding.nearest_canonical _ _ positive finite.canonical, h]
  | some d =>
      obtain ⟨k, -, onGrid⟩ := List.exists_of_findSome?_eq_some found
      exact Single.toBits_beq_iff.1 (accept_of_onGrid? onGrid)

theorem significand_shortest_ne_zero {target : Float32} {significand : ℕ} {exponent : ℤ}
    (positive : 0 < significand) (finite : Single.Finite significand exponent)
    (h : target = .ofModel (.pack (.finite .positive significand exponent positive))) :
    (shortest target significand exponent).significand ≠ 0 := by
  intro zero
  have reads := toSingle_shortest positive finite h
  rw [toSingle_eq_nearest, value, zero, Nat.cast_zero, zero_mul, Rounding.nearest_zero, h] at reads
  have unpacked := congrArg (fun x => x.toModel.unpack) reads
  dsimp only at unpacked
  rw [Single.unpack_pack positive finite] at unpacked
  cases unpacked

theorem units_lt {significand : ℕ} {exponent : ℤ} (finite : Single.Finite significand exponent) :
    units significand exponent + 1 < 10 ^ 200 := by
  have small := finite.significand_lt.le
  have shift : (exponent + places).toNat ≤ 253 := by
    have := finite.exponent_le
    simp only [places]
    omega
  have scale : 2 ^ (exponent + places).toNat ≤ 2 ^ 253 := Nat.pow_le_pow_right two_pos shift
  have product := Nat.mul_le_mul small scale
  have bound := Nat.mul_le_mul_right (5 ^ 149) product
  have room : 2 ^ 24 * 2 ^ 253 * 5 ^ 149 + 1 < 10 ^ 200 := by norm_num
  exact lt_of_le_of_lt (Nat.succ_le_succ bound) room

theorem size_of_onGrid? {accept : Decimal → Bool} {value dropped : ℕ} {d : Decimal}
    (h : onGrid? accept value dropped = some d) :
    d.significand ≤ value + 1 ∧ d.exponent = dropped - places := by
  have part : value / Nat.pow 10 dropped ≤ value := Nat.div_le_self _ _
  simp only [onGrid?] at h
  split at h
  · split at h <;> cases h
    · exact ⟨Nat.succ_le_succ part, rfl⟩
    · exact ⟨Nat.le_succ_of_le part, rfl⟩
  · split at h <;> cases h
    exact ⟨Nat.succ_le_succ part, rfl⟩

/-- The shortest decimal has few digits and a small exponent. -/
theorem size_shortest (target : Float32) {significand : ℕ} {exponent : ℤ}
    (finite : Single.Finite significand exponent) :
    (shortest target significand exponent).significand < 10 ^ 200 ∧
      -149 ≤ (shortest target significand exponent).exponent ∧
      (shortest target significand exponent).exponent ≤ 51 := by
  have units := units_lt finite
  rw [shortest]
  generalize found : (List.range enoughDigits).findSome? _ = best
  generalize Decimal.units significand exponent = value at *
  have count : digitCount value ≤ 200 :=
    (Nat.length_toDigits_le_iff (by decide) (by decide)).2 (Nat.lt_of_succ_lt units)
  cases best with
  | none =>
      rw [Option.getD_none]
      refine ⟨Nat.lt_of_succ_lt units, le_rfl, ?_⟩
      simp only [places]
      omega
  | some d =>
      obtain ⟨k, -, onGrid⟩ := List.exists_of_findSome?_eq_some found
      obtain ⟨digits, exponent_eq⟩ := size_of_onGrid? onGrid
      rw [Option.getD_some, exponent_eq]
      refine ⟨lt_of_le_of_lt digits units, ?_, ?_⟩ <;> simp only [places] <;> omega

end WaveBus.Decimal
