import WaveBus.Proofs.Rounding.Operations
import WaveBus.Proofs.Single.Order

/-! # Values of singles

The order of singles is the order of their exact values, and an operation on finite
singles gives the exact result, rounded.
-/

namespace WaveBus.Single

open Float.Model (Format UnpackedFloat)
open Float.Model.UnpackedFloat (Sign)
open Rounding (IsStored rounded)

/-- The exact value of a single. Infinity counts as the power of two above all of them. -/
def value (x : Float32) : ℚ := Rounding.value Format.binary32 x.toModel.unpack

/-- A single that has the rounded value of an exact result. -/
abbrev Rounds (x : Float32) (q : ℚ) : Prop := Rounding.Rounds Format.binary32 x.toModel.unpack q

variable {x y : Float32} {q r : ℚ}

theorem isStored (x : Float32) : IsStored Format.binary32 x.toModel.unpack :=
  Rounding.isStored_unpack (by decide) _

theorem isNaN_of_isFinite (h : x.isFinite = true) : x.isNaN = false :=
  Rounding.isNaN_of_isFinite h

theorem isFinite_or_isInf (h : x.isNaN = false) : x.isFinite = true ∨ x.isInf = true := by
  change x.toModel.unpack.isNaN = false at h
  change x.toModel.unpack.isFinite = true ∨ x.toModel.unpack.isInf = true
  cases hx : x.toModel.unpack with
  | notANumber =>
      rw [hx] at h
      cases h
  | infinity => exact .inr rfl
  | zero | finite => exact .inl rfl

/-! ## Order -/

theorem isNaN_left_of_le (h : x ≤ y) : x.isNaN = false := isNaN_eq_false_of_le h

theorem isNaN_right_of_le (h : x ≤ y) : y.isNaN = false := by
  rw [le_iff, UnpackedFloat.le] at h
  change y.toModel.unpack.isNaN = false
  cases hy : y.toModel.unpack with
  | notANumber =>
      rw [hy] at h
      cases hx : x.toModel.unpack with
      | notANumber | infinity | zero | finite =>
          rw [hx] at h
          cases h
  | infinity | zero | finite => rfl

theorem compare_unpack (number_x : x.isNaN = false) (number_y : y.isNaN = false) :
    x.toModel.unpack.compare y.toModel.unpack = some (compare (value x) (value y)) :=
  Rounding.compare_eq_compare_value (isStored x) (isStored y) number_x number_y

theorem le_iff_value_le (number_x : x.isNaN = false) (number_y : y.isNaN = false) :
    x ≤ y ↔ value x ≤ value y := by
  rw [le_iff]
  exact Rounding.le_iff_value_le (isStored x) (isStored y) number_x number_y

theorem lt_iff_value_lt (number_x : x.isNaN = false) (number_y : y.isNaN = false) :
    x < y ↔ value x < value y := by
  rw [lt_iff]
  exact Rounding.lt_iff_value_lt (isStored x) (isStored y) number_x number_y

theorem value_le_of_le (h : x ≤ y) : value x ≤ value y :=
  (le_iff_value_le (isNaN_left_of_le h) (isNaN_right_of_le h)).1 h

theorem value_lt_of_lt (h : x < y) : value x < value y :=
  (lt_iff_value_lt (isNaN_left_of_le (le_of_lt h)) (isNaN_right_of_le (le_of_lt h))).1 h

protected theorem le_refl (h : x.isNaN = false) : x ≤ x := (le_iff_value_le h h).2 le_rfl

protected theorem le_trans {z : Float32} (h : x ≤ y) (k : y ≤ z) : x ≤ z :=
  (le_iff_value_le (isNaN_left_of_le h) (isNaN_right_of_le k)).2
    ((value_le_of_le h).trans (value_le_of_le k))

protected theorem lt_of_lt_of_le {z : Float32} (h : x < y) (k : y ≤ z) : x < z :=
  (lt_iff_value_lt (isNaN_left_of_le (le_of_lt h)) (isNaN_right_of_le k)).2
    ((value_lt_of_lt h).trans_le (value_le_of_le k))

protected theorem lt_of_le_of_lt {z : Float32} (h : x ≤ y) (k : y < z) : x < z :=
  (lt_iff_value_lt (isNaN_left_of_le h) (isNaN_right_of_le (le_of_lt k))).2
    ((value_le_of_le h).trans_lt (value_lt_of_lt k))

theorem not_lt_of_le (h : x ≤ y) : ¬ y < x := fun less =>
  (value_lt_of_lt less).not_ge (value_le_of_le h)

/-- Finite singles are the numbers inside the bound. -/
theorem isFinite_iff_value (number : x.isNaN = false) :
    x.isFinite = true ↔ |value x| < Rounding.bound Format.binary32 :=
  Rounding.isFinite_iff_value (isStored x) number

/-- What lies between finite singles is finite. -/
theorem isFinite_of_between {a b : Float32} (finite_a : a.isFinite = true)
    (finite_b : b.isFinite = true) (lower : a ≤ x) (upper : x ≤ b) : x.isFinite = true := by
  have below := abs_lt.1 ((isFinite_iff_value (isNaN_of_isFinite finite_a)).1 finite_a)
  have above := abs_lt.1 ((isFinite_iff_value (isNaN_of_isFinite finite_b)).1 finite_b)
  refine (isFinite_iff_value (isNaN_left_of_le upper)).2 (abs_lt.2 ?_)
  exact ⟨below.1.trans_le (value_le_of_le lower), (value_le_of_le upper).trans_lt above.2⟩

theorem le_of_rounds (hx : Rounds x q) (hy : Rounds y r) (h : q ≤ r) : x ≤ y := by
  rw [le_iff_value_le hx.isNumber hy.isNumber, value, hx.value_eq, value, hy.value_eq]
  exact Rounding.rounded_mono h

theorem exact_of_rounds {n : ℕ} {e : ℤ} (h : Rounds x (n * 2 ^ e))
    (digits : n < 2 ^ Format.binary32.mantissaBits) (least : Format.binary32.minExponent ≤ e)
    (inside : (n : ℚ) * 2 ^ e < Rounding.bound Format.binary32) :
    x.isFinite = true ∧ value x = n * 2 ^ e :=
  Rounding.Rounds.exact h (isStored x) digits least inside

theorem rounds_self (number : x.isNaN = false) : Rounds x (value x) :=
  Rounding.rounds_value (isStored x) number

/-! ## Operations -/

theorem unpack_abs (x : Float32) : x.abs.toModel.unpack = x.toModel.unpack.abs := by
  have stored : IsStored Format.binary32 x.toModel.unpack.abs := by
    have own := isStored x
    cases hx : x.toModel.unpack with
    | finite =>
        rw [hx] at own
        exact own
    | notANumber | infinity | zero => trivial
  exact stored.unpack_pack

theorem isNaN_abs (number : x.isNaN = false) : x.abs.isNaN = false := by
  change x.toModel.unpack.isNaN = false at number
  show x.abs.toModel.unpack.isNaN = false
  rw [unpack_abs]
  cases hx : x.toModel.unpack with
  | notANumber =>
      rw [hx] at number
      cases number
  | infinity | zero | finite => rfl

theorem isFinite_abs (finite : x.isFinite = true) : x.abs.isFinite = true := by
  change x.toModel.unpack.isFinite = true at finite
  show x.abs.toModel.unpack.isFinite = true
  rw [unpack_abs]
  cases hx : x.toModel.unpack with
  | notANumber | infinity =>
      rw [hx] at finite
      cases finite
  | zero | finite => rfl

theorem value_abs (x : Float32) : value x.abs = |value x| := by
  rw [value, unpack_abs, value]
  cases x.toModel.unpack with
  | notANumber | zero => exact abs_zero.symm
  | infinity sign => exact (Rounding.abs_signed sign (Rounding.bound_pos _).le).symm
  | finite sign m e positive =>
      exact (Rounding.abs_signed sign (mul_nonneg (Nat.cast_nonneg m) (zpow_pos two_pos e).le)).symm

theorem rounds_abs (h : Rounds y q) : Rounds y.abs |q| :=
  ⟨isNaN_abs h.isNumber, by
    rw [← Rounding.abs_rounded, ← h.value_eq]
    exact value_abs y⟩

theorem rounds_add (finite_x : x.isFinite = true) (finite_y : y.isFinite = true) :
    Rounds (x + y) (value x + value y) :=
  Rounding.rounds_add (by decide) (isStored x) (isStored y) finite_x finite_y

theorem rounds_sub (finite_x : x.isFinite = true) (finite_y : y.isFinite = true) :
    Rounds (x - y) (value x - value y) :=
  Rounding.rounds_sub (by decide) (isStored x) (isStored y) finite_x finite_y

theorem rounds_mul (finite_x : x.isFinite = true) (finite_y : y.isFinite = true) :
    Rounds (x * y) (value x * value y) :=
  Rounding.rounds_mul (by decide) (isStored x) (isStored y) finite_x finite_y

theorem rounds_div (finite_x : x.isFinite = true) (finite_y : y.isFinite = true)
    (nonzero : value y ≠ 0) : Rounds (x / y) (value x / value y) :=
  Rounding.rounds_div (by decide) finite_x finite_y nonzero

end WaveBus.Single
