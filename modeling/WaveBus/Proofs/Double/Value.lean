import WaveBus.Precision
import WaveBus.Proofs.Single.Monotone

/-! # Values of doubles

A single has the same value as a double, and so have its half and its double. A double becomes
a single by one more rounding.
-/

namespace WaveBus.Double

open Float.Model (Format UnpackedFloat)
open Float.Model.UnpackedFloat (pack unpack)
open Rounding (IsStored rounded signed)

/-- The exact value of a double. Infinity counts as the power of two above all of them. -/
def value (x : Float) : ℚ := Rounding.value Format.binary64 x.toModel.unpack

/-- A double that has the rounded value of an exact result. -/
abbrev Rounds (x : Float) (q : ℚ) : Prop := Rounding.Rounds Format.binary64 x.toModel.unpack q

variable {x y : Float} {a : Float32} {q : ℚ}

theorem isStored (x : Float) : IsStored Format.binary64 x.toModel.unpack :=
  Rounding.isStored_unpack (by decide) _

theorem rounds_sub (finite_x : x.isFinite = true) (finite_y : y.isFinite = true) :
    Rounds (x - y) (value x - value y) :=
  Rounding.rounds_sub (by decide) (isStored x) (isStored y) finite_x finite_y

theorem rounds_mul (finite_x : x.isFinite = true) (finite_y : y.isFinite = true) :
    Rounds (x * y) (value x * value y) :=
  Rounding.rounds_mul (by decide) (isStored x) (isStored y) finite_x finite_y

theorem rounds_div (finite_x : x.isFinite = true) (finite_y : y.isFinite = true)
    (nonzero : value y ≠ 0) : Rounds (x / y) (value x / value y) :=
  Rounding.rounds_div (by decide) finite_x finite_y nonzero

/-- A result whose rounded value lies inside the range is finite. -/
theorem isFinite_of_rounds (h : Rounds x q)
    (inside : |rounded Format.binary64 q| < Rounding.bound Format.binary64) :
    x.isFinite = true := by
  refine (Rounding.isFinite_iff_value (isStored x) h.isNumber).2 ?_
  rw [h.value_eq]
  exact inside

theorem value_one : value 1.0 = 1 := by
  show ((4503599627370496 : ℕ) : ℚ) * 2 ^ (-52 : ℤ) = 1
  norm_num

theorem value_half : value 0.5 = 1 / 2 := by
  show ((4503599627370496 : ℕ) : ℚ) * 2 ^ (-53 : ℤ) = 1 / 2
  norm_num

theorem value_two : value 2.0 = 2 := by
  show ((4503599627370496 : ℕ) : ℚ) * 2 ^ (-51 : ℤ) = 2
  norm_num

theorem two_lt_bound : (2 : ℚ) < Rounding.bound Format.binary64 :=
  calc
    (2 : ℚ) = 2 ^ 1 := (pow_one 2).symm
    _ < 2 ^ 1024 := pow_lt_pow_right₀ one_lt_two (by decide)

/-! ## Order -/

theorem le_iff_value_le (number_x : x.isNaN = false) (number_y : y.isNaN = false) :
    x ≤ y ↔ value x ≤ value y := by
  show decide _ = true ↔ _
  rw [decide_eq_true_iff]
  exact Rounding.le_iff_value_le (isStored x) (isStored y) number_x number_y

theorem lt_iff_value_lt (number_x : x.isNaN = false) (number_y : y.isNaN = false) :
    x < y ↔ value x < value y := by
  show decide _ = true ↔ _
  rw [decide_eq_true_iff]
  exact Rounding.lt_iff_value_lt (isStored x) (isStored y) number_x number_y

theorem le_of_rounds {r : ℚ} (hx : Rounds x q) (hy : Rounds y r) (h : q ≤ r) : x ≤ y := by
  rw [le_iff_value_le hx.isNumber hy.isNumber, value, hx.value_eq, value, hy.value_eq]
  exact Rounding.rounded_mono h

/-! ## Changes of width -/

/-- A number rounded to a format. Special values are left alone. -/
def resized (spec : Format) : UnpackedFloat → UnpackedFloat
  | .finite sign m e _ => .round spec sign m e
  | special => special

theorem rounds_resized {source spec : Format} (wide : 2 ≤ spec.exponentBits) {u : UnpackedFloat}
    (finite : u.isFinite = true) :
    Rounding.Rounds spec (unpack spec (pack spec (resized spec u))) (Rounding.value source u) := by
  cases u with
  | notANumber | infinity => cases finite
  | zero sign => exact Rounding.rounds_zero sign
  | finite sign m e positive => exact Rounding.rounds_round wide sign positive e

theorem unpack_widen (a : Float32) :
    (widen a).toModel.unpack = unpack Format.binary64 (pack Format.binary64
      (resized Format.binary64 a.toModel.unpack)) := by
  rw [widen]
  cases a.toModel.unpack <;> rfl

theorem unpack_narrow (x : Float) :
    (narrow x).toModel.unpack = unpack Format.binary32 (pack Format.binary32
      (resized Format.binary32 x.toModel.unpack)) := by
  rw [narrow]
  cases x.toModel.unpack <;> rfl

theorem rounds_narrow (finite : x.isFinite = true) : Single.Rounds (narrow x) (value x) := by
  rw [Single.Rounds, unpack_narrow]
  exact rounds_resized (by decide) finite

/-- Half a single, a single and its double are doubles. -/
theorem rounded_shifted (finite : a.isFinite = true) {j : ℤ} (lower : -1 ≤ j) (upper : j ≤ 1) :
    rounded Format.binary64 (Single.value a * 2 ^ j) = Single.value a * 2 ^ j ∧
      |Single.value a * 2 ^ j| < Rounding.bound Format.binary64 := by
  change a.toModel.unpack.isFinite = true at finite
  have stored := Single.isStored a
  rw [Single.value]
  cases ha : a.toModel.unpack with
  | notANumber | infinity =>
      rw [ha] at finite
      cases finite
  | zero =>
      rw [Rounding.value, zero_mul, abs_zero]
      exact ⟨Rounding.rounded_zero, Rounding.bound_pos _⟩
  | finite sign m e positive =>
      rw [ha] at stored
      obtain ⟨short, least, -⟩ := Rounding.canonical_iff.1 (Rounding.Stored.canonical stored)
      have digits : m < 2 ^ Format.binary64.mantissaBits :=
        (Nat.log2_lt positive.ne').1 (short.trans_lt (by decide))
      have place : Format.binary64.minExponent ≤ e + j := by
        have deep : Format.binary64.minExponent ≤ Format.binary32.minExponent - 1 := by decide
        omega
      have moved : signed sign ((m : ℚ) * 2 ^ e) * 2 ^ j = signed sign (m * 2 ^ (e + j)) := by
        cases sign
        · rw [signed, signed, zpow_add₀ two_ne_zero]
          ring
        · rw [signed, signed, zpow_add₀ two_ne_zero]
          ring
      have room : (m : ℚ) * 2 ^ (e + j) < Rounding.bound Format.binary64 :=
        calc
          (m : ℚ) * 2 ^ (e + j) ≤ m * 2 ^ (e + 1) := by
            have grown := zpow_le_zpow_right₀ (one_le_two (α := ℚ)) (by omega : e + j ≤ e + 1)
            exact mul_le_mul_of_nonneg_left grown (Nat.cast_nonneg m)
          _ = m * 2 ^ e * 2 := by rw [zpow_add_one₀ two_ne_zero, mul_assoc]
          _ < 2 ^ 128 * 2 := mul_lt_mul_of_pos_right (Rounding.Stored.lt_bound stored) two_pos
          _ = 2 ^ 129 := (pow_succ 2 128).symm
          _ ≤ 2 ^ 1024 := pow_le_pow_right₀ one_le_two (by decide)
      rw [Rounding.value, moved, Rounding.abs_signed sign (Rounding.magnitude_pos positive _).le]
      exact ⟨Rounding.rounded_digits sign digits place room.le, room⟩

theorem rounds_widen (finite : a.isFinite = true) : Rounds (widen a) (Single.value a) := by
  rw [Rounds, unpack_widen]
  exact rounds_resized (by decide) finite

theorem value_widen (finite : a.isFinite = true) : value (widen a) = Single.value a := by
  have exact := (rounded_shifted finite (j := 0) (by decide) (by decide)).1
  rw [zpow_zero, mul_one] at exact
  exact (rounds_widen finite).value_eq.trans exact

theorem isFinite_widen (finite : a.isFinite = true) : (widen a).isFinite = true := by
  obtain ⟨exact, inside⟩ := rounded_shifted finite (j := 0) (by decide) (by decide)
  rw [zpow_zero, mul_one] at exact inside
  exact isFinite_of_rounds (rounds_widen finite) (exact.symm ▸ inside)

end WaveBus.Double
