import WaveBus.Params.Perturb
import WaveBus.Proofs.Double.Value
import WaveBus.Proofs.Single.Sum

/-! # Factors

A factor lies strictly between one half and two: a draw below one is below by `2 ^ -24` at
least, a double keeps half of it exactly, and there are doubles between one half and the least
difference from one, and between two and the largest reciprocal. Even the least single times a
factor is therefore more than a tie away from zero, and no number is rounded to zero.
-/

namespace WaveBus

open Float.Model (Format UnpackedFloat)
open Rounding (rounded)

/-- A draw: one of the multiples of `2 ^ -24` from zero to below one. -/
structure IsDraw (u : Float32) (k : ℕ) : Prop where
  finite : u.isFinite = true
  few : k < 2 ^ 24
  value_eq : Single.value u = k * 2 ^ (-24 : ℤ)

/-- A single from zero to below one, with either zero. -/
structure BelowOne (u : Float32) : Prop where
  nonneg : 0.0 ≤ u
  lt_one : u < 1.0

/-- A factor is above one half, by half a step of the draws at least, and two at most. -/
structure IsFactor (f : Float) : Prop where
  finite : f.isFinite = true
  lower : 1 / 2 + 2 ^ (-25 : ℤ) ≤ Double.value f
  upper : Double.value f ≤ 2

/-- A double from `m` to `n` steps of half the size of a step of the draws. -/
structure Within (m n : ℕ) (f : Float) : Prop where
  finite : f.isFinite = true
  lower : m * 2 ^ (-25 : ℤ) ≤ Double.value f
  upper : Double.value f ≤ n * 2 ^ (-25 : ℤ)

variable {u : Float32} {f : Float} {k m n : ℕ}

theorem isDraw_unit (word : UInt32) : IsDraw (Generator.unit word) (word >>> 8).toNat := by
  have few : (word >>> 8).toNat < Single.manyTerms := by
    rw [UInt32.toNat_shiftRight, Nat.shiftRight_eq_div_pow]
    have := word.toNat_lt
    show word.toNat / 2 ^ 8 < 2 ^ 24
    omega
  obtain ⟨finite, upper⟩ := Single.exact_ofInt few
  have step : Single.value (Float32.ofBits 0x33800000) = 2 ^ (-24 : ℤ) := by
    show ((8388608 : ℕ) : ℚ) * 2 ^ (-47 : ℤ) = 2 ^ (-24 : ℤ)
    norm_num
  have product := Single.rounds_mul finite (y := .ofBits 0x33800000) rfl
  rw [upper, step] at product
  have inside : ((word >>> 8).toNat : ℚ) * 2 ^ (-24 : ℤ) < Rounding.bound Format.binary32 := by
    have step_le : (2 : ℚ) ^ (-24 : ℤ) ≤ 1 := zpow_le_one_of_nonpos₀ one_le_two (by decide)
    exact (mul_le_of_le_one_right (Nat.cast_nonneg _) step_le).trans_lt
      (Single.natCast_lt_bound few)
  obtain ⟨finite, exact⟩ := Single.exact_of_rounds product few (by decide) inside
  exact ⟨finite, few, exact⟩

theorem IsDraw.belowOne (draw : IsDraw u k) : BelowOne u := by
  have number := Single.isNaN_of_isFinite draw.finite
  have few : (k : ℚ) < 2 ^ 24 := by exact_mod_cast draw.few
  refine ⟨(Single.le_iff_value_le rfl number).2 ?_, (Single.lt_iff_value_lt number rfl).2 ?_⟩
  · rw [Single.value_zero, draw.value_eq]
    positivity
  · rw [Single.value_one, draw.value_eq]
    calc
      (k : ℚ) * 2 ^ (-24 : ℤ) < 2 ^ 24 * 2 ^ (-24 : ℤ) :=
        mul_lt_mul_of_pos_right few (zpow_pos two_pos _)
      _ = 1 := by norm_num

/-! ## Factors -/

/-- Up to two, such a number of steps is a double, so rounding does not get past it. -/
theorem within_of_rounds {q : ℚ} (h : Double.Rounds f q) (few : n ≤ 2 ^ 26)
    (lower : m * 2 ^ (-25 : ℤ) ≤ q) (upper : q ≤ n * 2 ^ (-25 : ℤ)) : Within m n f := by
  have step : (0 : ℚ) < 2 ^ (-25 : ℤ) := zpow_pos two_pos _
  have small : ∀ k : ℕ, k ≤ 2 ^ 26 → (k : ℚ) * 2 ^ (-25 : ℤ) < Rounding.bound Format.binary64 := by
    intro k hk
    have count : (k : ℚ) ≤ 2 ^ 26 := by exact_mod_cast hk
    calc
      (k : ℚ) * 2 ^ (-25 : ℤ) ≤ 2 ^ 26 * 2 ^ (-25 : ℤ) := mul_le_mul_of_nonneg_right count step.le
      _ = 2 := by norm_num
      _ < Rounding.bound Format.binary64 := Double.two_lt_bound
  have kept : ∀ k : ℕ, k ≤ 2 ^ 26 →
      rounded Format.binary64 (k * 2 ^ (-25 : ℤ)) = k * 2 ^ (-25 : ℤ) := fun k hk =>
    Rounding.rounded_digits .positive (hk.trans_lt (by decide)) (by decide) (small k hk).le
  have fewer : m ≤ n := by exact_mod_cast le_of_mul_le_mul_right (lower.trans upper) step
  have least := (kept m (fewer.trans few)).ge.trans (Rounding.rounded_mono lower)
  have most := (Rounding.rounded_mono upper).trans (kept n few).le
  refine ⟨Double.isFinite_of_rounds h ?_, least.trans h.value_eq.ge, h.value_eq.trans_le most⟩
  rw [abs_of_nonneg ((mul_nonneg (Nat.cast_nonneg m) step.le).trans least)]
  exact most.trans_lt (small n few)

theorem Within.isFactor (h : Within m n f) (some : 2 ^ 24 < m) (few : n ≤ 2 ^ 26) : IsFactor f := by
  have step : (0 : ℚ) < 2 ^ (-25 : ℤ) := zpow_pos two_pos _
  have least : ((2 ^ 24 + 1 : ℕ) : ℚ) ≤ m := by exact_mod_cast some
  have most : (n : ℚ) ≤ 2 ^ 26 := by exact_mod_cast few
  refine ⟨h.finite, le_trans ?_ h.lower, h.upper.trans ?_⟩
  · calc
      (1 / 2 + 2 ^ (-25 : ℤ) : ℚ) = (2 ^ 24 + 1 : ℕ) * 2 ^ (-25 : ℤ) := by norm_num
      _ ≤ m * 2 ^ (-25 : ℤ) := mul_le_mul_of_nonneg_right least step.le
  · calc
      (n : ℚ) * 2 ^ (-25 : ℤ) ≤ 2 ^ 26 * 2 ^ (-25 : ℤ) := mul_le_mul_of_nonneg_right most step.le
      _ = 2 := by norm_num

namespace BelowOne

theorem isFinite (h : BelowOne u) : u.isFinite = true :=
  Single.isFinite_of_between Single.isFinite_zero Single.isFinite_one h.nonneg
    (Single.le_of_lt h.lt_one)

/-- Half of a draw is a double, so only the difference from one is rounded. -/
theorem rounds_shrink (h : BelowOne u) :
    Double.Rounds (scaleFactor u false) (1 - Single.value u / 2) := by
  obtain ⟨exact, inside⟩ := Double.rounded_shifted h.isFinite (j := -1) le_rfl (by decide)
  have halved : Single.value u * 2 ^ (-1 : ℤ) = Single.value u / 2 := by
    rw [zpow_neg_one, div_eq_mul_inv]
  rw [halved] at exact inside
  have half := Double.rounds_mul (y := 0.5) (Double.isFinite_widen h.isFinite) rfl
  rw [Double.value_widen h.isFinite, Double.value_half, mul_one_div] at half
  have finite := Double.isFinite_of_rounds half (exact.symm ▸ inside)
  have difference := Double.rounds_sub (x := 1.0) rfl finite
  rwa [Double.value_one, Double.value, half.value_eq, exact] at difference

/-- One less half of the largest draw is one step above one half. -/
theorem within_shrink (h : BelowOne u) : Within (2 ^ 24 + 1) (2 ^ 25) (scaleFactor u false) := by
  have above := Single.value_nonneg h.nonneg
  have below := Single.value_le_of_lt_one h.lt_one
  refine within_of_rounds h.rounds_shrink (by decide) ?_ ?_
  · calc
      ((2 ^ 24 + 1 : ℕ) : ℚ) * 2 ^ (-25 : ℤ) = 1 - (1 - 2 ^ (-24 : ℤ)) / 2 := by norm_num
      _ ≤ 1 - Single.value u / 2 :=
        sub_le_sub_left (div_le_div_of_nonneg_right below zero_le_two) 1
  · calc
      1 - Single.value u / 2 ≤ 1 := by linarith
      _ = (2 ^ 25 : ℕ) * 2 ^ (-25 : ℤ) := by norm_num

theorem value_shrink_pos (h : BelowOne u) : 0 < Double.value (scaleFactor u false) :=
  (mul_pos (Nat.cast_pos.2 (Nat.succ_pos _)) (zpow_pos two_pos _)).trans_le h.within_shrink.lower

theorem rounds_grow (h : BelowOne u) :
    Double.Rounds (scaleFactor u true) (1 / Double.value (scaleFactor u false)) := by
  have quotient := Double.rounds_div (x := 1.0) rfl h.within_shrink.finite h.value_shrink_pos.ne'
  rwa [Double.value_one] at quotient

/-- The reciprocal of one step above one half is almost two such steps below two. -/
theorem within_grow (h : BelowOne u) : Within (2 ^ 25) (2 ^ 26 - 2) (scaleFactor u true) := by
  have positive := h.value_shrink_pos
  have shrink := h.within_shrink
  refine within_of_rounds h.rounds_grow (by decide) ?_ ?_
  · calc
      ((2 ^ 25 : ℕ) : ℚ) * 2 ^ (-25 : ℤ) = 1 := by norm_num
      _ ≤ 1 / Double.value (scaleFactor u false) := by
        refine one_le_one_div positive (shrink.upper.trans (le_of_eq ?_))
        norm_num
  · rw [div_le_iff₀ positive]
    calc
      (1 : ℚ) ≤ (2 ^ 26 - 2 : ℕ) * 2 ^ (-25 : ℤ) * ((2 ^ 24 + 1 : ℕ) * 2 ^ (-25 : ℤ)) := by norm_num
      _ ≤ (2 ^ 26 - 2 : ℕ) * 2 ^ (-25 : ℤ) * Double.value (scaleFactor u false) :=
        mul_le_mul_of_nonneg_left shrink.lower (by positivity)

end BelowOne

theorem isFactor_scaleFactor (h : BelowOne u) (invert : Bool) : IsFactor (scaleFactor u invert) := by
  cases invert with
  | false => exact h.within_shrink.isFactor (by decide) (by decide)
  | true => exact h.within_grow.isFactor (by decide) (by decide)

theorem isFactor_factor (g : Generator) (ahead : ℕ) : IsFactor (g.factor ahead) :=
  isFactor_scaleFactor (isDraw_unit _).belowOne _

end WaveBus
