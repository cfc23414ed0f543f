import Mathlib

/-! # Rounding to the nearest

What an operation on floating-point numbers gives depends on its exact value alone.
The operations cut the value off somewhere and keep two bits about the rest. As long
as the cut is not above the place where the value has to be rounded, those bits say
enough, wherever it was made.
-/

namespace WaveBus.Rounding

open Float.Model Float.Model.UnpackedFloat

/-- The nearest whole number, ties to the even one. -/
def halfEven (q : ℚ) : ℕ :=
  let below := ⌊q⌋₊
  let rest := q - below
  if rest < 1 / 2 then below
  else if rest = 1 / 2 then below + below % 2
  else below + 1

/-- The exponent with which a format writes a value. -/
def place (spec : Format) (x : ℚ) : ℤ :=
  spec.targetExponent (Int.log 2 x + 1)

/-- A significand that may have grown by a bit when it was rounded. -/
def settle (spec : Format) (sign : Sign) (significand : ℕ) (exponent : ℤ) : UnpackedFloat :=
  let shifted := shiftToTargetExponent spec significand exponent .exact
  if h : shifted.1.mantissa = 0 then .zero sign
  else .finite sign shifted.1.mantissa shifted.2 (Nat.pos_of_ne_zero h)

/-- The nearest number of a format, as if exponents had no upper end. -/
def nearest (spec : Format) (sign : Sign) (x : ℚ) : UnpackedFloat :=
  settle spec sign (halfEven (x / 2 ^ place spec x)) (place spec x)

/-- A value cut off to a whole number, with what the two bits tell about the rest. -/
structure Describes (cut : ExtendedMantissa) (q : ℚ) : Prop where
  lower : 0 ≤ q - cut.mantissa
  upper : q - cut.mantissa < 1
  roundBit : cut.roundBit = true ↔ 1 / 2 ≤ q - cut.mantissa
  stickyBit : cut.stickyBit = true ↔ q - cut.mantissa ≠ 0 ∧ q - cut.mantissa ≠ 1 / 2

theorem Describes.floor {cut : ExtendedMantissa} {q : ℚ} (h : Describes cut q) :
    ⌊q⌋₊ = cut.mantissa := by
  have lower : (cut.mantissa : ℚ) ≤ q := by linarith [h.lower]
  have upper : q < cut.mantissa + 1 := by linarith [h.upper]
  exact (Nat.floor_eq_iff (le_trans (Nat.cast_nonneg _) lower)).2 ⟨lower, upper⟩

/-- The two bits suffice to round. -/
theorem Describes.roundedMantissa {cut : ExtendedMantissa} {q : ℚ} (h : Describes cut q) :
    cut.roundedMantissa = halfEven q := by
  rw [halfEven, h.floor]
  obtain ⟨mantissa, roundBit, stickyBit⟩ := cut
  obtain ⟨lower, upper, round, sticky⟩ := h
  dsimp only at lower upper round sticky ⊢
  generalize q - mantissa = rest at *
  cases roundBit with
  | false =>
      have low : rest < 1 / 2 := not_le.1 fun up => Bool.false_ne_true (round.2 up)
      rw [if_pos low]
      cases stickyBit <;> rfl
  | true =>
      have high : 1 / 2 ≤ rest := round.1 rfl
      rw [if_neg (not_lt.2 high)]
      cases stickyBit with
      | false =>
          have half : rest = 1 / 2 := by
            by_contra off
            exact Bool.false_ne_true (sticky.2 ⟨by linarith, off⟩)
          rw [if_pos half]
          rfl
      | true =>
          rw [if_neg (sticky.1 rfl).2]
          rfl

/-- Halving moves the last digit into the bits. -/
theorem Describes.shiftRightOne {cut : ExtendedMantissa} {q : ℚ} (h : Describes cut q) :
    Describes cut.shiftRightOne (q / 2) := by
  obtain ⟨mantissa, roundBit, stickyBit⟩ := cut
  obtain ⟨lower, upper, round, sticky⟩ := h
  dsimp only at lower upper round sticky
  have halves : ((2 * (mantissa / 2) + mantissa % 2 : ℕ) : ℚ) = mantissa := by
    rw [Nat.div_add_mod]
  push_cast at halves
  have rest : q / 2 - (mantissa / 2 : ℕ) = ((mantissa % 2 : ℕ) + (q - mantissa)) / 2 := by
    linarith
  generalize q - mantissa = low at *
  have inexact : (roundBit || stickyBit) = true ↔ low ≠ 0 := by
    rw [Bool.or_eq_true, round, sticky]
    constructor
    · rintro (up | ⟨off, -⟩)
      · linarith
      · exact off
    · intro off
      by_cases half : low = 1 / 2
      · exact .inl half.ge
      · exact .inr ⟨off, half⟩
  -- The digit that leaves becomes the round bit; both bits before it merge into the sticky one.
  rcases Nat.mod_two_eq_zero_or_one mantissa with even | odd
  · rw [even, Nat.cast_zero, zero_add] at rest
    refine ⟨?_, ?_, ?_, ?_⟩ <;> dsimp only [ExtendedMantissa.shiftRightOne] <;> rw [rest]
    · linarith
    · linarith
    · simp only [even, bne_self_eq_false, Bool.false_eq_true, false_iff]
      linarith
    · rw [inexact]
      exact ⟨fun off => ⟨fun e => off (by linarith), by linarith⟩,
        fun off e => off.1 (by linarith)⟩
  · rw [odd, Nat.cast_one] at rest
    refine ⟨?_, ?_, ?_, ?_⟩ <;> dsimp only [ExtendedMantissa.shiftRightOne] <;> rw [rest]
    · linarith
    · linarith
    · have digit : (1 != 0) = true := rfl
      simp only [odd, digit, true_iff]
      linarith
    · rw [inexact]
      exact ⟨fun off => ⟨by linarith, fun e => off (by linarith)⟩,
        fun off e => off.2 (by linarith)⟩

theorem Describes.shiftRight {cut : ExtendedMantissa} {q : ℚ} (h : Describes cut q) (n : ℕ) :
    Describes (cut >>> n) (q / 2 ^ n) := by
  induction n with
  | zero =>
      rw [pow_zero, div_one]
      exact h
  | succ n ih =>
      rw [pow_succ, ← div_div]
      exact ih.shiftRightOne

theorem describes_exact (n : ℕ) : Describes (.ofMantissaAndAccuracy n .exact) n := by
  refine ⟨?_, ?_, ?_, ?_⟩ <;> simp only [ExtendedMantissa.ofMantissaAndAccuracy, sub_self]
  · exact le_refl 0
  · exact one_pos
  · norm_num
  · norm_num

theorem describes_inexact (n : ℕ) {q : ℚ} (above : 0 < q - n) (below : q - n < 1) :
    Describes (.ofMantissaAndAccuracy n (.inexact (compare (q - n) (1 / 2)))) q := by
  rcases lt_trichotomy (q - n) (1 / 2) with low | half | high
  · rw [compare_lt_iff_lt.2 low]
    refine ⟨above.le, below, ?_, ?_⟩ <;> dsimp only [ExtendedMantissa.ofMantissaAndAccuracy]
    · simp only [Bool.false_eq_true, false_iff]
      exact not_le.2 low
    · simp only [true_iff]
      exact ⟨above.ne', low.ne⟩
  · rw [compare_eq_iff_eq.2 half]
    refine ⟨above.le, below, ?_, ?_⟩ <;> dsimp only [ExtendedMantissa.ofMantissaAndAccuracy]
    · simp only [true_iff]
      exact half.ge
    · simp only [Bool.false_eq_true, false_iff]
      exact fun off => off.2 half
  · rw [compare_gt_iff_gt.2 high]
    refine ⟨above.le, below, ?_, ?_⟩ <;> dsimp only [ExtendedMantissa.ofMantissaAndAccuracy]
    · simp only [true_iff]
      exact high.le
    · simp only [true_iff]
      exact ⟨above.ne', high.ne'⟩

theorem compare_double (rest : ℕ) {den : ℕ} (h : 0 < den) :
    compare (2 * rest) den = compare ((rest : ℚ) / den) (1 / 2) := by
  have positive : (0 : ℚ) < den := by exact_mod_cast h
  rcases lt_trichotomy (2 * rest) den with low | half | high
  · have below : (2 : ℚ) * rest < den := by exact_mod_cast low
    rw [Nat.compare_eq_lt.2 low, eq_comm, compare_lt_iff_lt, div_lt_div_iff₀ positive two_pos]
    linarith
  · have even : (2 : ℚ) * rest = den := by exact_mod_cast half
    rw [Nat.compare_eq_eq.2 half, eq_comm, compare_eq_iff_eq, div_eq_div_iff positive.ne' two_ne_zero]
    linarith
  · have above : (den : ℚ) < 2 * rest := by exact_mod_cast high
    rw [Nat.compare_eq_gt.2 high, eq_comm, compare_gt_iff_gt,
      div_lt_div_iff₀ two_pos positive]
    linarith

/-- The bits of a quotient, from the remainder of the division. -/
theorem describes_quotient (num : ℕ) {den : ℕ} (h : 0 < den) :
    Describes (.ofMantissaAndAccuracy (num / den) (accuracyOfFraction (num % den) den))
      ((num : ℚ) / den) := by
  have positive : (0 : ℚ) < den := by exact_mod_cast h
  have whole : ((den * (num / den) + num % den : ℕ) : ℚ) = num := by rw [Nat.div_add_mod]
  push_cast at whole
  have split : (num : ℚ) / den - (num / den : ℕ) = (num % den : ℕ) / den := by
    field_simp
    linarith
  have rest_lt := Nat.mod_lt num h
  generalize num / den = quotient at *
  generalize num % den = rest at *
  rw [accuracyOfFraction]
  by_cases exact : rest = 0
  · rw [exact, Nat.cast_zero, zero_div, sub_eq_zero] at split
    rw [if_pos exact, split]
    exact describes_exact quotient
  · have above : (0 : ℚ) < rest := by exact_mod_cast Nat.pos_of_ne_zero exact
    have below : (rest : ℚ) < den := by exact_mod_cast rest_lt
    rw [if_neg exact, compare_double rest h, ← split]
    refine describes_inexact quotient ?_ ?_ <;> rw [split]
    · exact div_pos above positive
    · exact (div_lt_one positive).2 below

theorem pow_le_iff_le_log {x : ℚ} (positive : 0 < x) (k : ℤ) : 2 ^ k ≤ x ↔ k ≤ Int.log 2 x := by
  exact_mod_cast Int.zpow_le_iff_le_log (R := ℚ) one_lt_two positive

theorem lt_pow_iff_log_lt {x : ℚ} (positive : 0 < x) (k : ℤ) : x < 2 ^ k ↔ Int.log 2 x < k := by
  exact_mod_cast Int.lt_zpow_iff_log_lt (R := ℚ) one_lt_two positive

theorem log_scaled {x : ℚ} (positive : 0 < x) (e : ℤ) :
    Int.log 2 (x * 2 ^ e) = Int.log 2 x + e := by
  have scale : (0 : ℚ) < 2 ^ e := zpow_pos two_pos e
  have product : 0 < x * 2 ^ e := mul_pos positive scale
  have lower : Int.log 2 x + e ≤ Int.log 2 (x * 2 ^ e) := by
    rw [← pow_le_iff_le_log product, zpow_add₀ two_ne_zero]
    exact mul_le_mul_of_nonneg_right ((pow_le_iff_le_log positive _).2 le_rfl) scale.le
  have upper : Int.log 2 (x * 2 ^ e) < Int.log 2 x + 1 + e := by
    rw [← lt_pow_iff_log_lt product, zpow_add₀ two_ne_zero]
    exact mul_lt_mul_of_pos_right ((lt_pow_iff_log_lt positive _).2 (lt_add_one _)) scale
  omega

theorem minExponent_le_place (spec : Format) (x : ℚ) : spec.minExponent ≤ place spec x :=
  le_max_right _ _

/-- The exponent aimed at after a value was cut off is the one of the value. -/
theorem targetExponent_floor (spec : Format) {x : ℚ} (positive : 0 < x) {e : ℤ}
    (early : e ≤ place spec x) :
    spec.targetExponent (totalExponent ⌊x / 2 ^ e⌋₊ e) = place spec x := by
  have scale : (0 : ℚ) < 2 ^ e := zpow_pos two_pos e
  have scaled : x = x / 2 ^ e * 2 ^ e := by field_simp
  by_cases small : x / 2 ^ e < 1
  · -- nothing is left of the value, so its place is the lower end
    have log : Int.log 2 x < e :=
      (lt_pow_iff_log_lt positive e).1 ((div_lt_one scale).1 small)
    have bits := spec.hm
    simp only [place, Format.targetExponent, Format.mantissaBits] at early ⊢
    rw [Nat.floor_eq_zero.2 small, totalExponent, Nat.log2_zero]
    omega
  · have log : Int.log 2 x = (⌊x / 2 ^ e⌋₊).log2 + e := by
      rw [scaled, log_scaled (div_pos positive scale), Int.log_of_one_le_right 2 (not_lt.1 small),
        ← scaled, Nat.log2_eq_log_two]
    rw [place, log, totalExponent]
    ring_nf

/-- Rounding a value that was cut off early enough gives the number nearest to it. -/
theorem roundWithAccuracy_eq_nearest (spec : Format) (sign : Sign) {x : ℚ} (positive : 0 < x)
    {mantissa : ℕ} {e : ℤ} {accuracy : Accuracy}
    (cut : Describes (.ofMantissaAndAccuracy mantissa accuracy) (x / 2 ^ e))
    (early : e ≤ place spec x) :
    roundWithAccuracy spec sign mantissa e accuracy = nearest spec sign x := by
  have floor : ⌊x / 2 ^ e⌋₊ = mantissa := by
    rw [cut.floor]
    cases accuracy with
    | exact => rfl
    | inexact order => cases order <;> rfl
  have target : spec.targetExponent (totalExponent mantissa e) = place spec x := by
    rw [← floor, targetExponent_floor spec positive early]
  have shift : e + (place spec x - e).toNat = place spec x := by omega
  have rounded := (cut.shiftRight (place spec x - e).toNat).roundedMantissa
  have exact : x / 2 ^ e / 2 ^ (place spec x - e).toNat = x / 2 ^ place spec x := by
    rw [div_div, ← zpow_natCast, ← zpow_add₀ two_ne_zero, shift]
  rw [exact] at rounded
  rw [roundWithAccuracy, shiftToTargetExponent, target, shiftToExponent]
  dsimp only
  rw [rounded, shift]
  rfl


theorem halfEven_natCast (n : ℕ) : halfEven n = n := by
  rw [← (describes_exact n).roundedMantissa]
  rfl

/-- A significand and an exponent as a format keeps them. -/
def Canonical (spec : Format) (significand : ℕ) (exponent : ℤ) : Prop :=
  spec.targetExponent (totalExponent significand exponent) = exponent

theorem place_natCast (spec : Format) {n : ℕ} (positive : 0 < n) (e : ℤ) :
    place spec (n * 2 ^ e) = spec.targetExponent (totalExponent n e) := by
  have size : (0 : ℚ) < n := by exact_mod_cast positive
  rw [place, log_scaled size, Int.log_natCast, totalExponent, Nat.log2_eq_log_two]
  ring_nf

theorem settle_canonical (spec : Format) (sign : Sign) {significand : ℕ} {exponent : ℤ}
    (positive : 0 < significand) (canonical : Canonical spec significand exponent) :
    settle spec sign significand exponent = .finite sign significand exponent positive := by
  rw [Canonical] at canonical
  simp only [settle, shiftToTargetExponent, shiftToExponent, canonical, sub_self,
    Int.toNat_zero, Nat.cast_zero, add_zero]
  exact dif_neg (show ¬ significand = 0 from positive.ne')

/-- A number of the format is nearest to itself. -/
theorem nearest_canonical (spec : Format) (sign : Sign) {significand : ℕ} {exponent : ℤ}
    (positive : 0 < significand) (canonical : Canonical spec significand exponent) :
    nearest spec sign (significand * 2 ^ exponent) =
      .finite sign significand exponent positive := by
  have scale : (2 : ℚ) ^ exponent ≠ 0 := zpow_ne_zero exponent two_ne_zero
  rw [nearest, place_natCast spec positive, canonical, mul_div_cancel_right₀ _ scale,
    halfEven_natCast]
  exact settle_canonical spec sign positive canonical

theorem mantissa_shiftRight (n k : ℕ) :
    (ExtendedMantissa.ofMantissaAndAccuracy n .exact >>> k).mantissa = n / 2 ^ k := by
  rw [← ((describes_exact n).shiftRight k).floor]
  exact_mod_cast Nat.floor_div_eq_div (K := ℚ) n (2 ^ k)

theorem settle_zero (spec : Format) (sign : Sign) (e : ℤ) : settle spec sign 0 e = .zero sign := by
  simp only [settle, shiftToTargetExponent, shiftToExponent]
  exact dif_pos (by rw [mantissa_shiftRight, Nat.zero_div])

/-- What has a significand keeps one, at an exponent that is no lower. -/
theorem settle_pos (spec : Format) (sign : Sign) {n : ℕ} (positive : 0 < n) {e : ℤ}
    (least : spec.minExponent ≤ e) :
    ∃ significand exponent h,
      settle spec sign n e = .finite sign significand exponent h ∧ e ≤ exponent := by
  have kept : (spec.targetExponent (totalExponent n e) - e).toNat ≤ n.log2 := by
    simp only [Format.targetExponent, totalExponent, Format.mantissaBits]
    omega
  have left : 0 < (shiftToTargetExponent spec n e .exact).1.mantissa := by
    rw [shiftToTargetExponent, shiftToExponent, mantissa_shiftRight]
    refine Nat.div_pos ?_ (Nat.two_pow_pos _)
    exact le_trans (Nat.pow_le_pow_right two_pos kept) (Nat.log2_self_le positive.ne')
  refine ⟨_, _, left, dif_neg left.ne', ?_⟩
  simp only [shiftToTargetExponent, shiftToExponent]
  omega

theorem nearest_zero (spec : Format) (sign : Sign) : nearest spec sign 0 = .zero sign := by
  rw [nearest, zero_div, ← Nat.cast_zero, halfEven_natCast, settle_zero]

end WaveBus.Rounding
