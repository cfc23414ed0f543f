import WaveBus.Proofs.Single.Monotone

/-! # Levels from zero to one

Products, complements and blends of such levels are such levels again. A blend of two shares
that were rounded apart from each other could come out above one, but their errors together
are too small to reach the next single.
-/

namespace WaveBus.Single

open Float.Model (Format)
open Rounding (rounded onGrid place)

/-- A number from zero to one, with either zero. -/
structure InUnit (x : Float32) : Prop where
  nonneg : 0.0 ≤ x
  le_one : x ≤ 1.0

variable {x y share : Float32} {q : ℚ}

theorem inUnit_of_rounds (h : Rounds x q) (lower : 0 ≤ q) (upper : q ≤ 1) : InUnit x :=
  ⟨le_of_rounds rounds_zero h lower, le_of_rounds h rounds_one upper⟩

theorem inUnit_zero : InUnit 0.0 := ⟨by decide, by decide⟩

theorem inUnit_one : InUnit 1.0 := ⟨by decide, by decide⟩

/-- What is not beyond a finite number is finite. -/
theorem isFinite_of_rounds (h : Rounds y q) (finite : x.isFinite = true)
    (inside : |q| ≤ |value x|) : y.isFinite = true := by
  have bounds := abs_le.1 (inside.trans (abs_value_le_largest finite))
  exact isFinite_of_between (a := -largest) (b := largest) rfl rfl
    (le_of_rounds (rounds_self rfl) h bounds.1) (le_of_rounds h (rounds_self rfl) bounds.2)

namespace InUnit

theorem isFinite (h : InUnit x) : x.isFinite = true :=
  isFinite_of_between isFinite_zero isFinite_one h.nonneg h.le_one

theorem isNaN (h : InUnit x) : x.isNaN = false := isNaN_left_of_le h.le_one

theorem value_nonneg (h : InUnit x) : 0 ≤ value x := Single.value_nonneg h.nonneg

theorem value_le_one (h : InUnit x) : value x ≤ 1 := value_one ▸ value_le_of_le h.le_one

theorem mul (hx : InUnit x) (hy : InUnit y) : InUnit (x * y) :=
  inUnit_of_rounds (rounds_mul hx.isFinite hy.isFinite)
    (mul_nonneg hx.value_nonneg hy.value_nonneg)
    (mul_le_one₀ hx.value_le_one hy.value_nonneg hy.value_le_one)

/-- A product does not exceed its second factor. -/
theorem mul_le (hx : InUnit x) (hy : InUnit y) : x * y ≤ y :=
  le_of_rounds (rounds_mul hx.isFinite hy.isFinite) (rounds_self hy.isNaN)
    (mul_le_of_le_one_left hy.value_nonneg hx.value_le_one)

/-- A level does not make a finite number overflow. -/
theorem isFinite_mul_left (hx : InUnit x) (finite : y.isFinite = true) : (x * y).isFinite = true := by
  apply isFinite_of_rounds (rounds_mul hx.isFinite finite) finite
  rw [abs_mul, abs_of_nonneg hx.value_nonneg]
  exact mul_le_of_le_one_left (abs_nonneg _) hx.value_le_one

theorem isFinite_mul_right (hy : InUnit y) (finite : x.isFinite = true) :
    (x * y).isFinite = true := by
  apply isFinite_of_rounds (rounds_mul finite hy.isFinite) finite
  rw [abs_mul, abs_of_nonneg hy.value_nonneg]
  exact mul_le_of_le_one_right (abs_nonneg _) hy.value_le_one

theorem one_sub (h : InUnit x) : InUnit (1.0 - x) := by
  have difference := rounds_sub isFinite_one h.isFinite
  rw [value_one] at difference
  exact inUnit_of_rounds difference (by linarith [h.value_le_one]) (by linarith [h.value_nonneg])

end InUnit

/-- Below one, half a step of the grid is `2 ^ -25` at most. -/
theorem rounded_le_add (lower : 0 ≤ q) (upper : q ≤ 1) :
    rounded Format.binary32 q ≤ q + 2 ^ (-25 : ℤ) := by
  have step : (0 : ℚ) < 2 ^ (-25 : ℤ) := zpow_pos two_pos _
  rcases lower.eq_or_lt with rfl | positive
  · rw [Rounding.rounded_zero]
    linarith
  rcases upper.eq_or_lt with rfl | below
  · have one := rounds_one.value_eq
    rw [← one, show Rounding.value Format.binary32 _ = 1 from value_one]
    linarith
  · have log : Int.log 2 q < 0 := (Rounding.lt_pow_iff_log_lt positive 0).1 (by simpa using below)
    have fine : place Format.binary32 q ≤ -24 := by
      show max (Int.log 2 q + 1 - 24) (-149) ≤ -24
      omega
    have near : |onGrid Format.binary32 q - q| ≤ 2 ^ place Format.binary32 q / 2 :=
      Rounding.abs_onGrid_sub_le lower
    have error := (abs_le.1 near).2
    have half : (2 : ℚ) ^ place Format.binary32 q / 2 ≤ 2 ^ (-25 : ℤ) := by
      rw [div_le_iff₀ two_pos, ← zpow_add_one₀ two_ne_zero]
      exact zpow_le_zpow_right₀ one_le_two fine
    rw [Rounding.rounded_of_nonneg lower]
    exact (min_le_left _ _).trans (sub_le_iff_le_add'.1 (error.trans half))

/-- One is the nearest single to what is less than half a step above it. -/
theorem rounded_le_one (h : q ≤ 1 + 2 ^ (-25 : ℤ)) : rounded Format.binary32 q ≤ 1 := by
  have positive : (0 : ℚ) < 1 + 2 ^ (-25 : ℤ) := by norm_num
  have log : Int.log 2 (1 + 2 ^ (-25 : ℤ) : ℚ) = 0 := by
    have lower := (Rounding.pow_le_iff_le_log positive 0).1 (by norm_num)
    have upper := (Rounding.lt_pow_iff_log_lt positive 1).1 (by norm_num)
    omega
  have step : place Format.binary32 (1 + 2 ^ (-25 : ℤ)) = -23 := by
    show max (Int.log 2 _ + 1 - 24) (-149) = -23
    rw [log]
    rfl
  have whole : Rounding.halfEven ((1 + 2 ^ (-25 : ℤ)) / 2 ^ (-23 : ℤ)) ≤ 2 ^ 23 := by
    have exact : ((1 + 2 ^ (-25 : ℤ)) / 2 ^ (-23 : ℤ) : ℚ) = 2 ^ 23 + 1 / 4 := by norm_num
    have error := (abs_le.1 (Rounding.abs_halfEven_sub_le (q := 2 ^ 23 + 1 / 4) (by positivity))).2
    have below : (Rounding.halfEven (2 ^ 23 + 1 / 4) : ℚ) < ((2 ^ 23 + 1 : ℕ) : ℚ) := by
      push_cast
      linarith
    rw [exact]
    exact Nat.lt_succ_iff.1 (by exact_mod_cast below)
  calc
    rounded Format.binary32 q ≤ rounded Format.binary32 (1 + 2 ^ (-25 : ℤ)) :=
      Rounding.rounded_mono h
    _ ≤ onGrid Format.binary32 (1 + 2 ^ (-25 : ℤ)) := by
      rw [Rounding.rounded_of_nonneg positive.le]
      exact min_le_left _ _
    _ ≤ 2 ^ 23 * 2 ^ (-23 : ℤ) := by
      rw [onGrid, step]
      exact mul_le_mul_of_nonneg_right (by exact_mod_cast whole) (zpow_pos two_pos _).le
    _ = 1 := by norm_num

theorem InUnit.blend (hx : InUnit x) (hy : InUnit y) (hs : InUnit share) :
    InUnit (x * (1.0 - share) + y * share) := by
  have rest := hs.one_sub
  have sum := rounds_add (hx.mul rest).isFinite (hy.mul hs).isFinite
  have left := value_le_of_le (hx.mul_le rest)
  have right := value_le_of_le (hy.mul_le hs)
  have difference := (rounds_sub isFinite_one hs.isFinite).value_eq
  rw [value_one] at difference
  have error := rounded_le_add (q := 1 - value share) (by linarith [hs.value_le_one])
    (by linarith [hs.value_nonneg])
  have near : value (1.0 - share) ≤ 1 - value share + 2 ^ (-25 : ℤ) := difference.trans_le error
  refine ⟨le_of_rounds rounds_zero sum ?_, ?_⟩
  · exact add_nonneg (hx.mul rest).value_nonneg (hy.mul hs).value_nonneg
  · rw [le_iff_value_le sum.isNumber rfl, value_one]
    exact sum.value_eq.trans_le (rounded_le_one (by linarith))

end WaveBus.Single
