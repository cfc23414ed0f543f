import WaveBus.Proofs.Rounding.Nearest

/-! # Quotients and decimals

Division and the reading of decimals give the nearest number. A decimal far outside
the format is not worked out, which makes no difference: the nearest number is packed
as infinity, or is zero.
-/

namespace WaveBus.Rounding

open Float.Model Float.Model.UnpackedFloat

theorem pow_log2_le {m : ℕ} (positive : 0 < m) : (2 : ℚ) ^ (m.log2 : ℤ) ≤ m := by
  rw [zpow_natCast]
  exact_mod_cast Nat.log2_self_le positive.ne'

theorem lt_pow_log2 (m : ℕ) : (m : ℚ) < 2 ^ (m.log2 + 1 : ℤ) := by
  have upper : m < 2 ^ (m.log2 + 1) := Nat.lt_log2_self
  exact_mod_cast upper

/-- The exponent from which a quotient is cut off is early enough. -/
theorem early_quotient (spec : Format) {m₁ m₂ : ℕ} (h₁ : 0 < m₁) (h₂ : 0 < m₂) (e₁ e₂ : ℤ) :
    spec.targetExponent (totalExponent m₁ e₁ - totalExponent m₂ e₂) ≤
      place spec ((m₁ : ℚ) * 2 ^ e₁ / (m₂ * 2 ^ e₂)) := by
  have size₁ : (0 : ℚ) < m₁ := by exact_mod_cast h₁
  have size₂ : (0 : ℚ) < m₂ := by exact_mod_cast h₂
  have scale₁ : (0 : ℚ) < 2 ^ e₁ := zpow_pos two_pos e₁
  have scale₂ : (0 : ℚ) < 2 ^ e₂ := zpow_pos two_pos e₂
  have lower : (2 : ℚ) ^ ((m₁.log2 + e₁) - (m₂.log2 + 1 + e₂) : ℤ) ≤
      m₁ * 2 ^ e₁ / (m₂ * 2 ^ e₂) := by
    rw [zpow_sub₀ two_ne_zero, zpow_add₀ two_ne_zero, zpow_add₀ two_ne_zero (_ + 1)]
    have above := mul_le_mul_of_nonneg_right (pow_log2_le h₁) scale₁.le
    have below := mul_le_mul_of_nonneg_right (lt_pow_log2 m₂).le scale₂.le
    exact div_le_div₀ (by positivity) above (by positivity) below
  have log := (pow_le_iff_le_log (by positivity) _).1 lower
  simp only [place, totalExponent, Format.targetExponent] at log ⊢
  omega

/-- Division gives the number nearest to the quotient. -/
theorem div_eq_nearest (spec : Format) (s₁ s₂ : Sign) {m₁ m₂ : ℕ} (h₁ : 0 < m₁) (h₂ : 0 < m₂)
    (e₁ e₂ : ℤ) :
    UnpackedFloat.div spec (.finite s₁ m₁ e₁ h₁) (.finite s₂ m₂ e₂ h₂) =
      nearest spec (s₁ / s₂) ((m₁ : ℚ) * 2 ^ e₁ / (m₂ * 2 ^ e₂)) := by
  have size₁ : (0 : ℚ) < m₁ := by exact_mod_cast h₁
  have size₂ : (0 : ℚ) < m₂ := by exact_mod_cast h₂
  have scale₁ : (0 : ℚ) < 2 ^ e₁ := zpow_pos two_pos e₁
  have scale₂ : (0 : ℚ) < 2 ^ e₂ := zpow_pos two_pos e₂
  have early := early_quotient spec h₁ h₂ e₁ e₂
  simp only [UnpackedFloat.div, divCore]
  generalize spec.targetExponent (totalExponent m₁ e₁ - totalExponent m₂ e₂) = target at early ⊢
  have exact : (m₁ : ℚ) * 2 ^ e₁ / (m₂ * 2 ^ e₂) / 2 ^ min (e₁ - e₂) target =
      (m₁ <<< (e₁ - e₂ - min (e₁ - e₂) target).toNat : ℕ) / m₂ := by
    have shift : ((e₁ - e₂ - min (e₁ - e₂) target).toNat : ℤ) =
        e₁ - e₂ - min (e₁ - e₂) target := by omega
    rw [Nat.shiftLeft_eq]
    push_cast
    rw [← zpow_natCast, shift, zpow_sub₀ two_ne_zero, zpow_sub₀ two_ne_zero]
    field_simp
  apply roundWithAccuracy_eq_nearest spec (s₁ / s₂) (by positivity)
  · rw [exact]
    exact describes_quotient _ h₂
  · omega

/-- A product that has enough digits of its own is the number nearest to it. -/
theorem mul_eq_nearest (spec : Format) (s₁ s₂ : Sign) {m₁ m₂ : ℕ} (h₁ : 0 < m₁) (h₂ : 0 < m₂)
    {e₁ e₂ : ℤ} (early : e₁ + e₂ ≤ place spec ((m₁ * m₂ : ℕ) * 2 ^ (e₁ + e₂))) :
    UnpackedFloat.mul spec (.finite s₁ m₁ e₁ h₁) (.finite s₂ m₂ e₂ h₂) =
      nearest spec (s₁ * s₂) ((m₁ * m₂ : ℕ) * 2 ^ (e₁ + e₂)) := by
  have size : (0 : ℚ) < (m₁ * m₂ : ℕ) := by exact_mod_cast Nat.mul_pos h₁ h₂
  have scale : (0 : ℚ) < 2 ^ (e₁ + e₂) := zpow_pos two_pos _
  apply roundWithAccuracy_eq_nearest spec (s₁ * s₂) (mul_pos size scale) _ early
  rw [mul_div_cancel_right₀ _ scale.ne']
  exact describes_exact (m₁ * m₂)

theorem floor_le_halfEven (q : ℚ) : ⌊q⌋₊ ≤ halfEven q := by
  simp only [halfEven]
  split_ifs <;> omega

/-- A number above all numbers of a format is packed as infinity. -/
theorem pack_nearest_large (spec : Format) (sign : Sign) {x : ℚ} (positive : 0 < x)
    (large : 2 ^ spec.exponentBits ≤ Int.log 2 x) :
    UnpackedFloat.pack spec (nearest spec sign x) = packedInfinity spec sign := by
  have bits := spec.hm
  have half : (0 : ℤ) < 2 ^ (spec.exponentBits - 1) := by positivity
  have least : spec.minExponent ≤ 0 := by
    simp only [Format.minExponent, Format.mantissaBits]
    omega
  have upward : 0 ≤ Int.log 2 x := le_trans (by positivity) large
  have bounds : place spec x ≤ Int.log 2 x ∧
      Int.log 2 x - spec.mantissaBitsWithoutImplicit ≤ place spec x := by
    simp only [place, Format.targetExponent, Format.mantissaBits]
    omega
  have left : 0 < halfEven (x / 2 ^ place spec x) := by
    refine Nat.lt_of_lt_of_le ?_ (floor_le_halfEven _)
    rw [Nat.floor_pos, le_div_iff₀ (zpow_pos two_pos _), one_mul]
    exact (pow_le_iff_le_log positive _).2 bounds.1
  obtain ⟨significand, exponent, h, kept, above⟩ :=
    settle_pos spec sign left (minExponent_le_place spec x)
  have beyond : 2 ^ spec.exponentBits ≤
      (exponent + spec.exponentBias + spec.mantissaBitsWithoutImplicit).toNat + 1 := by
    zify
    omega
  rw [nearest, kept]
  exact if_pos beyond

/-- A number below all numbers of a format is nearest to zero. -/
theorem nearest_small (spec : Format) (sign : Sign) {x : ℚ} (positive : 0 < x)
    (small : x < 2 ^ (spec.minExponent - 1)) : nearest spec sign x = .zero sign := by
  have log := (lt_pow_iff_log_lt positive _).1 small
  have lowest : place spec x = spec.minExponent := by
    simp only [place, Format.targetExponent]
    omega
  have part : x / 2 ^ spec.minExponent < 1 / 2 := by
    rw [div_lt_div_iff₀ (zpow_pos two_pos _) two_pos, one_mul]
    rw [zpow_sub_one₀ two_ne_zero, ← div_eq_mul_inv, lt_div_iff₀ two_pos] at small
    exact small
  have none : halfEven (x / 2 ^ spec.minExponent) = 0 := by
    have floor : ⌊x / 2 ^ spec.minExponent⌋₊ = 0 := Nat.floor_eq_zero.2 (by linarith)
    rw [halfEven, floor, Nat.cast_zero, sub_zero]
    exact if_pos part
  rw [nearest, lowest, none, settle_zero]

theorem two_pow_le_ten_pow {e : ℤ} (h : 0 ≤ e) : (2 : ℚ) ^ e ≤ 10 ^ e := by
  lift e to ℕ using h
  simp only [zpow_natCast]
  exact pow_le_pow_left₀ two_pos.le (by norm_num) e

theorem ten_pow_le_two_pow {e : ℤ} (h : e ≤ 0) : (10 : ℚ) ^ e ≤ 2 ^ e := by
  have := two_pow_le_ten_pow (neg_nonneg.2 h)
  rw [zpow_neg, zpow_neg] at this
  exact (inv_le_inv₀ (zpow_pos two_pos e) (zpow_pos (by norm_num) e)).1 this

theorem scientific_lt (spec : Format)
    (narrow : spec.mantissaBitsWithoutImplicit ≤ 2 ^ (spec.exponentBits - 1)) {m : ℕ} {e : ℤ}
    (positive : 0 < m) (small : e < -((2 ^ spec.exponentBits : ℤ) + m.log2)) :
    (m : ℚ) * 10 ^ e < 2 ^ (spec.minExponent - 1) := by
  have size : (0 : ℚ) < m := Nat.cast_pos.2 positive
  have range : (0 : ℤ) < 2 ^ spec.exponentBits := by positivity
  have bits : (spec.mantissaBitsWithoutImplicit : ℤ) ≤ 2 ^ (spec.exponentBits - 1) := by
    exact_mod_cast narrow
  have double : (2 : ℤ) ^ spec.exponentBits = 2 * 2 ^ (spec.exponentBits - 1) := by
    rw [← pow_succ', Nat.sub_add_cancel spec.he]
  have exponents : m.log2 + 1 + e ≤ spec.minExponent - 1 := by
    simp only [Format.minExponent, Format.mantissaBits]
    omega
  calc
    (m : ℚ) * 10 ^ e ≤ m * 2 ^ e :=
      mul_le_mul_of_nonneg_left (ten_pow_le_two_pow (by omega)) size.le
    _ < 2 ^ (m.log2 + 1 : ℤ) * 2 ^ e :=
      mul_lt_mul_of_pos_right (lt_pow_log2 m) (zpow_pos two_pos e)
    _ = 2 ^ (m.log2 + 1 + e : ℤ) := (zpow_add₀ two_ne_zero _ _).symm
    _ ≤ 2 ^ (spec.minExponent - 1) := zpow_le_zpow_right₀ one_le_two exponents

/-- A decimal is read as the number nearest to it. -/
theorem pack_ofScientific (spec : Format)
    (narrow : spec.mantissaBitsWithoutImplicit ≤ 2 ^ (spec.exponentBits - 1)) (m : ℕ) (e : ℤ) :
    UnpackedFloat.pack spec (UnpackedFloat.ofScientific spec m e) =
      UnpackedFloat.pack spec (nearest spec .positive (m * 10 ^ e)) := by
  rw [UnpackedFloat.ofScientific]
  by_cases zero : m = 0
  · rw [dif_pos zero, zero, Nat.cast_zero, zero_mul, nearest_zero]
  have positive : 0 < m := Nat.pos_of_ne_zero zero
  have one : (1 : ℚ) ≤ m := by exact_mod_cast positive
  have value : (0 : ℚ) < m * 10 ^ e := mul_pos (by linarith) (zpow_pos (by norm_num) e)
  rw [dif_neg zero]
  -- The reader cuts off exponents far outside the format; there the nearest number is known.
  by_cases large : e > 2 ^ spec.exponentBits
  · have range : (0 : ℤ) < 2 ^ spec.exponentBits := by positivity
    have above : (2 : ℚ) ^ e ≤ m * 10 ^ e := by
      have power := two_pow_le_ten_pow (e := e) (by omega)
      nlinarith [zpow_pos (two_pos : (0 : ℚ) < 2) e]
    have log := (pow_le_iff_le_log value e).1 above
    rw [if_pos large, pack_nearest_large spec .positive value (by omega)]
    rfl
  by_cases small : e < -((2 ^ spec.exponentBits : ℤ) + m.log2)
  · rw [if_neg large, if_pos small,
      nearest_small spec .positive value (scientific_lt spec narrow positive small)]
  rw [if_neg large, if_neg small]
  by_cases whole : 0 ≤ e
  · have exact : ((m <<< spec.mantissaBits * 10 ^ e.toNat : ℕ) : ℚ) *
        2 ^ (-(spec.mantissaBits : ℤ) + 0) = m * 10 ^ e := by
      lift e to ℕ using whole
      rw [Nat.shiftLeft_eq, add_zero, zpow_neg, zpow_natCast, Int.toNat_natCast]
      push_cast
      field_simp
      rfl
    rw [if_pos whole, mul_eq_nearest, exact]
    · rfl
    · rw [exact]
      have above : (2 : ℚ) ^ (0 : ℤ) ≤ m * 10 ^ e := by
        rw [zpow_zero]
        exact one_le_mul_of_one_le_of_one_le one (one_le_zpow₀ (by norm_num) whole)
      have log := (pow_le_iff_le_log value 0).1 above
      simp only [place, Format.targetExponent]
      omega
  · have exact : (m : ℚ) * 2 ^ (0 : ℤ) / ((10 ^ (-e).toNat : ℕ) * 2 ^ (0 : ℤ)) = m * 10 ^ e := by
      have inverse : (10 : ℚ) ^ (-e).toNat = 10 ^ (-e) := by
        rw [← zpow_natCast, Int.toNat_of_nonneg (by omega)]
      push_cast
      rw [inverse, mul_one, mul_one, zpow_neg, div_inv_eq_mul]
    rw [if_neg whole, div_eq_nearest, exact]
    rfl

end WaveBus.Rounding
