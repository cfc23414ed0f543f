import WaveBus.Proofs.Rounding.Nearest

/-! # Rounded magnitudes

Each value lies on the grid of its own place, and rounding moves it to a neighbour there.
Rounding keeps the order of values, also across places: a power of two where the grid gets
coarser lies on the grids of both sides. Numbers that the format can write stay where they are.
-/

namespace WaveBus.Rounding

open Float.Model

theorem halfEven_zero : halfEven 0 = 0 := by
  simpa using halfEven_natCast 0

/-- Rounding to a whole number moves by a half at most. -/
theorem abs_halfEven_sub_le {q : ℚ} (nonneg : 0 ≤ q) : |(halfEven q : ℚ) - q| ≤ 1 / 2 := by
  have lower := Nat.floor_le nonneg
  have upper := Nat.lt_floor_add_one q
  have parity : (⌊q⌋₊ % 2 : ℕ) = (0 : ℚ) ∨ (⌊q⌋₊ % 2 : ℕ) = (1 : ℚ) := by
    exact_mod_cast Nat.mod_two_eq_zero_or_one ⌊q⌋₊
  simp only [halfEven]
  rw [abs_le]
  split_ifs with low half
  · constructor <;> linarith
  · push_cast at parity ⊢
    constructor <;> rcases parity with even | odd <;> linarith
  · have high : 1 / 2 < q - ⌊q⌋₊ := lt_of_le_of_ne (not_lt.1 low) (Ne.symm half)
    push_cast
    constructor <;> linarith

/-- Two whole numbers in the wrong order are a whole unit apart, which two errors of a half
    make up only between equal values. -/
theorem halfEven_mono {q r : ℚ} (nonneg : 0 ≤ q) (h : q ≤ r) : halfEven q ≤ halfEven r := by
  by_contra reversed
  have unit : (halfEven r : ℚ) + 1 ≤ halfEven q := by exact_mod_cast not_le.1 reversed
  have below := abs_le.1 (abs_halfEven_sub_le nonneg)
  have above := abs_le.1 (abs_halfEven_sub_le (nonneg.trans h))
  have same : q = r := by linarith [below.2, above.1]
  exact reversed (same ▸ le_rfl)

/-- A magnitude rounded to the grid of its place. -/
def onGrid (spec : Format) (x : ℚ) : ℚ := halfEven (x / 2 ^ place spec x) * 2 ^ place spec x

variable {spec : Format} {x y : ℚ}

theorem onGrid_zero : onGrid spec 0 = 0 := by
  rw [onGrid, zero_div, halfEven_zero, Nat.cast_zero, zero_mul]

theorem onGrid_nonneg : 0 ≤ onGrid spec x :=
  mul_nonneg (Nat.cast_nonneg _) (zpow_pos two_pos _).le

/-- Rounding moves by half a step of the grid at most. -/
theorem abs_onGrid_sub_le (nonneg : 0 ≤ x) : |onGrid spec x - x| ≤ 2 ^ place spec x / 2 := by
  have step : (0 : ℚ) < 2 ^ place spec x := zpow_pos two_pos _
  have error := abs_halfEven_sub_le (div_nonneg nonneg step.le)
  have scaled : onGrid spec x - x =
      (halfEven (x / 2 ^ place spec x) - x / 2 ^ place spec x) * 2 ^ place spec x := by
    rw [onGrid, sub_mul, div_mul_cancel₀ _ step.ne']
  rw [scaled, abs_mul, abs_of_pos step]
  linarith [mul_le_mul_of_nonneg_right error step.le]

/-- What lies on the grid of its place stays where it is. -/
theorem onGrid_multiple {n : ℕ} (h : x = n * 2 ^ place spec x) : onGrid spec x = x := by
  have step : (2 : ℚ) ^ place spec x ≠ 0 := zpow_ne_zero _ two_ne_zero
  rw [onGrid, (div_eq_iff step).2 h, halfEven_natCast]
  exact h.symm

/-- A number with few enough digits at a place of the format is not rounded. -/
theorem onGrid_digits {n : ℕ} {e : ℤ} (digits : n < 2 ^ spec.mantissaBits)
    (least : spec.minExponent ≤ e) : onGrid spec (n * 2 ^ e) = n * 2 ^ e := by
  rcases Nat.eq_zero_or_pos n with rfl | positive
  · rw [Nat.cast_zero, zero_mul, onGrid_zero]
  have log := (Nat.log2_lt positive.ne').2 digits
  have finer : place spec (n * 2 ^ e) ≤ e := by
    rw [place_natCast spec positive, Format.targetExponent, totalExponent]
    omega
  apply onGrid_multiple (n := n * 2 ^ (e - place spec (n * 2 ^ e)).toNat)
  have shift : ((e - place spec (n * 2 ^ e)).toNat : ℤ) = e - place spec (n * 2 ^ e) := by omega
  push_cast
  rw [← zpow_natCast, shift, mul_assoc, ← zpow_add₀ two_ne_zero, sub_add_cancel]

theorem onGrid_pow {e : ℤ} (least : spec.minExponent ≤ e) : onGrid spec (2 ^ e) = 2 ^ e := by
  have digits : 1 < 2 ^ spec.mantissaBits :=
    Nat.one_lt_two_pow (by rw [Format.mantissaBits]; omega)
  simpa using onGrid_digits digits least

theorem place_mono (positive : 0 < x) (h : x ≤ y) : place spec x ≤ place spec y := by
  have log := Int.log_mono_right (b := 2) positive h
  simp only [place, Format.targetExponent]
  omega

/-- A value is below the power of two that follows the longest number at its place. -/
theorem lt_pow_place (positive : 0 < x) : x < 2 ^ (place spec x + spec.mantissaBits) := by
  rw [lt_pow_iff_log_lt positive]
  simp only [place, Format.targetExponent]
  omega

theorem halfEven_le_of_le {q : ℚ} {n : ℕ} (nonneg : 0 ≤ q) (h : q ≤ n) : halfEven q ≤ n := by
  simpa only [halfEven_natCast] using halfEven_mono nonneg h

theorem le_halfEven_of_le {q : ℚ} {n : ℕ} (h : (n : ℚ) ≤ q) : n ≤ halfEven q := by
  simpa only [halfEven_natCast] using halfEven_mono (Nat.cast_nonneg n) h

/-- The significand at the place of a value, rounded, has one digit too many at most. -/
theorem halfEven_le_pow (positive : 0 < x) :
    halfEven (x / 2 ^ place spec x) ≤ 2 ^ spec.mantissaBits := by
  have step : (0 : ℚ) < 2 ^ place spec x := zpow_pos two_pos _
  apply halfEven_le_of_le (div_pos positive step).le
  have below : x ≤ 2 ^ (place spec x + spec.mantissaBits) := (lt_pow_place positive).le
  rw [zpow_add₀ two_ne_zero, mul_comm, zpow_natCast] at below
  push_cast
  exact (div_le_iff₀ step).2 below

/-- Above the lowest place, the rounded significand has all its digits. -/
theorem pow_le_halfEven (positive : 0 < x) (above : place spec x ≠ spec.minExponent) :
    2 ^ spec.mantissaBitsWithoutImplicit ≤ halfEven (x / 2 ^ place spec x) := by
  have step : (0 : ℚ) < 2 ^ place spec x := zpow_pos two_pos _
  have log : place spec x + spec.mantissaBitsWithoutImplicit = Int.log 2 x := by
    simp only [place, Format.targetExponent, Format.mantissaBits] at above ⊢
    omega
  apply le_halfEven_of_le
  rw [le_div_iff₀ step]
  push_cast
  rw [← zpow_natCast, ← zpow_add₀ two_ne_zero, add_comm, log]
  exact (pow_le_iff_le_log positive _).2 le_rfl

/-- Rounding keeps the order. -/
theorem onGrid_mono (nonneg : 0 ≤ x) (h : x ≤ y) : onGrid spec x ≤ onGrid spec y := by
  rcases nonneg.eq_or_lt with rfl | positive
  · rw [onGrid_zero]
    exact onGrid_nonneg
  have stepX : (0 : ℚ) < 2 ^ place spec x := zpow_pos two_pos _
  have stepY : (0 : ℚ) < 2 ^ place spec y := zpow_pos two_pos _
  have places : place spec x ≤ place spec y := place_mono positive h
  rcases places.eq_or_lt with same | coarser
  · have scaled := div_le_div_of_nonneg_right h stepY.le
    have whole := halfEven_mono (div_nonneg nonneg stepY.le) scaled
    rw [onGrid, onGrid, same]
    exact mul_le_mul_of_nonneg_right (by exact_mod_cast whole) stepY.le
  · -- the least number with all its digits at the coarser place lies between the two
    have above : place spec y ≠ spec.minExponent :=
      ((minExponent_le_place spec x).trans_lt coarser).ne'
    have few : (halfEven (x / 2 ^ place spec x) : ℚ) ≤ 2 ^ spec.mantissaBits := by
      have short : halfEven (x / 2 ^ place spec x) ≤ 2 ^ spec.mantissaBits := halfEven_le_pow positive
      exact_mod_cast short
    have many : (2 : ℚ) ^ spec.mantissaBitsWithoutImplicit ≤ halfEven (y / 2 ^ place spec y) := by
      exact_mod_cast pow_le_halfEven (positive.trans_le h) above
    calc
      onGrid spec x ≤ 2 ^ spec.mantissaBits * 2 ^ place spec x :=
        mul_le_mul_of_nonneg_right few stepX.le
      _ = 2 ^ (spec.mantissaBits + place spec x : ℤ) := by
        rw [zpow_add₀ two_ne_zero, zpow_natCast]
      _ ≤ 2 ^ (spec.mantissaBitsWithoutImplicit + place spec y : ℤ) := by
        apply zpow_le_zpow_right₀ one_le_two
        rw [Format.mantissaBits]
        omega
      _ = 2 ^ spec.mantissaBitsWithoutImplicit * 2 ^ place spec y := by
        rw [zpow_add₀ two_ne_zero, zpow_natCast]
      _ ≤ onGrid spec y := mul_le_mul_of_nonneg_right many stepY.le

end WaveBus.Rounding
