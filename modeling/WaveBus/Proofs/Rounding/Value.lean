import WaveBus.Proofs.Rounding.Packing
import WaveBus.Proofs.Rounding.Scientific

/-! # Exact values

Every number has an exact value. Infinity counts as the least power of two that no finite
number reaches: then overflow is a cut at this bound, the order of numbers is the order of
their values, infinities included, and an operation on finite numbers gives the exact result,
rounded.
-/

namespace WaveBus.Rounding

open Float.Model (Format UnpackedFloat)
open Float.Model.UnpackedFloat

def signed : Sign → ℚ → ℚ
  | .positive, x => x
  | .negative, x => -x

/-- The least power of two above all finite numbers of a format. -/
def bound (spec : Format) : ℚ := 2 ^ (spec.exponentBias + 1)

def value (spec : Format) : UnpackedFloat → ℚ
  | .infinity sign => signed sign (bound spec)
  | .notANumber => 0
  | .zero _ => 0
  | .finite sign m e _ => signed sign (m * 2 ^ e)

/-- The value to which an exact result is rounded. -/
def rounded (spec : Format) (q : ℚ) : ℚ :=
  if q < 0 then -min (onGrid spec (-q)) (bound spec) else min (onGrid spec q) (bound spec)

/-- What a word can unpack to. -/
def IsStored (spec : Format) : UnpackedFloat → Prop
  | .finite _ m e _ => Stored spec m e
  | _ => True

/-- A number that has the rounded value of an exact result. -/
structure Rounds (spec : Format) (u : UnpackedFloat) (q : ℚ) : Prop where
  isNumber : u.isNaN = false
  value_eq : value spec u = rounded spec q

variable {spec : Format}

/-! ## Signs -/

theorem signed_mul (s t : Sign) (x y : ℚ) : signed s x * signed t y = signed (s * t) (x * y) := by
  cases s <;> cases t
  · exact neg_mul_neg x y
  · exact neg_mul x y
  · exact mul_neg x y
  · rfl

theorem signed_div (s t : Sign) (x y : ℚ) : signed s x / signed t y = signed (s / t) (x / y) := by
  cases s <;> cases t
  · exact neg_div_neg_eq x y
  · exact neg_div y x
  · exact div_neg x
  · rfl

theorem signed_neg (s : Sign) (x : ℚ) : signed (-s) x = -signed s x := by
  cases s
  · exact (neg_neg x).symm
  · rfl

theorem cast_apply (s : Sign) (n : ℕ) : ((s.apply n : ℤ) : ℚ) = signed s n := by
  cases s
  · exact Int.cast_neg _
  · rfl

/-! ## Rounding -/

theorem abs_signed (s : Sign) {x : ℚ} (h : 0 ≤ x) : |signed s x| = x := by
  cases s with
  | negative => exact (abs_neg x).trans (abs_of_nonneg h)
  | positive => exact abs_of_nonneg h

theorem bound_pos (spec : Format) : 0 < bound spec := pow_pos two_pos _

theorem rounded_of_nonneg {q : ℚ} (h : 0 ≤ q) :
    rounded spec q = min (onGrid spec q) (bound spec) :=
  if_neg (not_lt.2 h)

theorem rounded_zero : rounded spec 0 = 0 := by
  rw [rounded_of_nonneg le_rfl, onGrid_zero, min_eq_left (bound_pos spec).le]

theorem rounded_neg (q : ℚ) : rounded spec (-q) = -rounded spec q := by
  rcases lt_trichotomy q 0 with negative | rfl | positive
  · rw [rounded_of_nonneg (neg_nonneg.2 negative.le), rounded, if_pos negative, neg_neg]
  · rw [neg_zero, rounded_zero, neg_zero]
  · rw [rounded_of_nonneg positive.le, rounded, if_pos (neg_lt_zero.2 positive), neg_neg]

theorem rounded_signed (s : Sign) {x : ℚ} (h : 0 ≤ x) :
    rounded spec (signed s x) = signed s (min (onGrid spec x) (bound spec)) := by
  cases s with
  | negative => rw [signed, rounded_neg, rounded_of_nonneg h, signed]
  | positive => rw [signed, rounded_of_nonneg h, signed]

theorem rounded_nonneg {q : ℚ} (h : 0 ≤ q) : 0 ≤ rounded spec q := by
  rw [rounded_of_nonneg h]
  exact le_min onGrid_nonneg (bound_pos spec).le

theorem abs_rounded (q : ℚ) : |rounded spec q| = rounded spec |q| := by
  rcases le_total 0 q with nonneg | nonpos
  · rw [abs_of_nonneg nonneg, abs_of_nonneg (rounded_nonneg nonneg)]
  · rw [← abs_neg, ← rounded_neg, abs_of_nonpos nonpos,
      abs_of_nonneg (rounded_nonneg (neg_nonneg.2 nonpos))]

/-- What has few enough digits, and lies in the range of the format, is exact. -/
theorem rounded_digits (sign : Sign) {n : ℕ} {e : ℤ} (digits : n < 2 ^ spec.mantissaBits)
    (least : spec.minExponent ≤ e) (inside : (n : ℚ) * 2 ^ e ≤ bound spec) :
    rounded spec (signed sign (n * 2 ^ e)) = signed sign (n * 2 ^ e) := by
  have magnitude : (0 : ℚ) ≤ n * 2 ^ e := mul_nonneg (Nat.cast_nonneg n) (zpow_pos two_pos e).le
  rw [rounded_signed sign magnitude, onGrid_digits digits least, min_eq_left inside]

/-- Rounding keeps the order of exact results. -/
theorem rounded_mono {q r : ℚ} (h : q ≤ r) : rounded spec q ≤ rounded spec r := by
  have forward : ∀ {x y : ℚ}, 0 ≤ x → x ≤ y → rounded spec x ≤ rounded spec y := by
    intro x y nonneg le
    rw [rounded_of_nonneg nonneg, rounded_of_nonneg (nonneg.trans le)]
    exact min_le_min_right _ (onGrid_mono nonneg le)
  rcases le_total 0 q with nonneg | nonpos
  · exact forward nonneg h
  · have mirrored : rounded spec q = -rounded spec (-q) := by rw [rounded_neg, neg_neg]
    rcases le_total 0 r with right | left
    · have below : 0 ≤ rounded spec (-q) := rounded_nonneg (neg_nonneg.2 nonpos)
      exact (by linarith : rounded spec q ≤ 0).trans (rounded_nonneg right)
    · have swapped := forward (neg_nonneg.2 left) (neg_le_neg h)
      rw [rounded_neg, rounded_neg] at swapped
      exact neg_le_neg_iff.1 swapped

theorem rounded_nonpos {q : ℚ} (h : q ≤ 0) : rounded spec q ≤ 0 :=
  (rounded_mono h).trans rounded_zero.le

/-! ## Stored numbers -/

theorem Stored.lt_bound {m : ℕ} {e : ℤ} (h : Stored spec m e) : (m : ℚ) * 2 ^ e < bound spec := by
  have codes := exponentCodes spec
  have coded := h.coded
  have short := (canonical_iff.1 h.canonical).1
  have scale : (0 : ℚ) < 2 ^ e := zpow_pos two_pos e
  calc
    (m : ℚ) * 2 ^ e < 2 ^ (m.log2 + 1 : ℤ) * 2 ^ e :=
      mul_lt_mul_of_pos_right (lt_pow_log2 m) scale
    _ = 2 ^ (m.log2 + 1 + e : ℤ) := (zpow_add₀ two_ne_zero _ _).symm
    _ ≤ 2 ^ ((spec.exponentBias + 1 : ℕ) : ℤ) := by
      apply zpow_le_zpow_right₀ one_le_two
      omega
    _ = bound spec := zpow_natCast _ _

theorem Stored.onGrid {m : ℕ} {e : ℤ} (h : Stored spec m e) :
    onGrid spec (m * 2 ^ e) = m * 2 ^ e := by
  obtain ⟨short, least, -⟩ := canonical_iff.1 h.canonical
  refine onGrid_digits (lt_of_lt_of_le Nat.lt_log2_self ?_) least
  apply Nat.pow_le_pow_right two_pos
  rw [Format.mantissaBits]
  omega

/-- A canonical number whose exponent has no code is not below the bound. -/
theorem bound_le_of_large (wide : 2 ≤ spec.exponentBits) {m : ℕ} {e : ℤ} (positive : 0 < m)
    (canonical : Canonical spec m e)
    (large : 2 ^ spec.exponentBits ≤
      e + spec.exponentBias + spec.mantissaBitsWithoutImplicit + 1) :
    bound spec ≤ m * 2 ^ e := by
  have codes := exponentCodes spec
  have least := minExponent_eq spec
  have bias := one_le_exponentBias wide
  have full := (canonical_iff.1 canonical).2.2.resolve_right (by omega)
  calc
    bound spec = 2 ^ ((spec.exponentBias + 1 : ℕ) : ℤ) := (zpow_natCast _ _).symm
    _ ≤ 2 ^ (m.log2 + e : ℤ) := by
      apply zpow_le_zpow_right₀ one_le_two
      omega
    _ = 2 ^ (m.log2 : ℤ) * 2 ^ e := zpow_add₀ two_ne_zero _ _
    _ ≤ m * 2 ^ e := mul_le_mul_of_nonneg_right (pow_log2_le positive) (zpow_pos two_pos e).le

theorem isStored_unpack (wide : 2 ≤ spec.exponentBits) (word : BitVec spec.numBits) :
    IsStored spec (unpack spec word) := by
  cases h : unpack spec word with
  | finite => exact stored_of_unpack wide h
  | infinity | notANumber | zero => trivial

/-- What can be unpacked survives packing. -/
theorem IsStored.unpack_pack {u : UnpackedFloat} (h : IsStored spec u) :
    unpack spec (pack spec u) = u := by
  cases u with
  | infinity => exact unpack_packedInfinity spec _
  | notANumber => exact unpack_packedNaN
  | zero => exact unpack_packedZero
  | finite => exact unpack_pack_stored _ h

theorem rounded_value {u : UnpackedFloat} (h : IsStored spec u) :
    rounded spec (value spec u) = value spec u := by
  have large : bound spec ≤ onGrid spec (bound spec) := by
    have least : spec.minExponent ≤ ((spec.exponentBias + 1 : ℕ) : ℤ) := by
      rw [minExponent_eq]
      omega
    rw [bound, ← zpow_natCast, onGrid_pow least]
  cases u with
  | infinity => rw [value, rounded_signed _ (bound_pos spec).le, min_eq_right large]
  | notANumber | zero => exact rounded_zero
  | finite sign m e positive =>
      have magnitude : (0 : ℚ) ≤ m * 2 ^ e :=
        mul_nonneg (Nat.cast_nonneg m) (zpow_pos two_pos e).le
      rw [value, rounded_signed sign magnitude, Stored.onGrid h, min_eq_left (Stored.lt_bound h).le]

theorem rounds_value {u : UnpackedFloat} (h : IsStored spec u) (number : u.isNaN = false) :
    Rounds spec u (value spec u) :=
  ⟨number, (rounded_value h).symm⟩

theorem rounds_zero (sign : Sign) :
    Rounds spec (unpack spec (pack spec (.zero sign))) 0 := by
  have kept : unpack spec (pack spec (.zero sign)) = .zero sign := unpack_packedZero
  rw [kept]
  exact ⟨rfl, rounded_zero.symm⟩

/-! ## The nearest number -/

/-- A rounded significand that needs one digit more gives it up again without loss. -/
theorem settle_rounded (sign : Sign) {n : ℕ} {e : ℤ} (positive : 0 < n)
    (digits : n ≤ 2 ^ spec.mantissaBits) (least : spec.minExponent ≤ e)
    (full : 2 ^ spec.mantissaBitsWithoutImplicit ≤ n ∨ e = spec.minExponent) :
    ∃ m e' h, settle spec sign n e = .finite sign m e' h ∧ Canonical spec m e' ∧
      (m : ℚ) * 2 ^ e' = n * 2 ^ e := by
  rcases digits.eq_or_lt with rfl | fewer
  · have canonical : Canonical spec (2 ^ spec.mantissaBitsWithoutImplicit) (e + 1) := by
      rw [canonical_iff, Nat.log2_two_pow]
      omega
    have target : spec.targetExponent (Float.Model.totalExponent (2 ^ spec.mantissaBits) e) =
        e + 1 := by
      simp only [Format.targetExponent, Float.Model.totalExponent, Nat.log2_two_pow]
      omega
    have half : 2 ^ spec.mantissaBits / 2 ^ 1 = 2 ^ spec.mantissaBitsWithoutImplicit := by
      rw [Format.mantissaBits, Nat.pow_div (by omega) two_pos, Nat.add_sub_cancel_left]
    have one : (e + 1 - e).toNat = 1 := by omega
    refine ⟨_, _, Nat.two_pow_pos _, ?_, canonical, ?_⟩
    · rw [settle]
      simp only [shiftToTargetExponent, shiftToExponent, target, one, mantissa_shiftRight, half]
      exact dif_neg (Nat.two_pow_pos _).ne'
    · push_cast
      rw [zpow_add_one₀ two_ne_zero, Format.mantissaBits]
      ring
  · have log := (Nat.log2_lt positive.ne').2 fewer
    have canonical : Canonical spec n e := by
      rw [Format.mantissaBits] at log
      refine canonical_iff.2 ⟨by omega, least, full.imp_left fun size => ?_⟩
      have := (Nat.le_log2 positive.ne').2 size
      omega
    exact ⟨n, e, positive, settle_canonical spec sign positive canonical, canonical, rfl⟩

theorem rounds_nearest (wide : 2 ≤ spec.exponentBits) (sign : Sign) {x : ℚ} (nonneg : 0 ≤ x) :
    Rounds spec (unpack spec (pack spec (nearest spec sign x))) (signed sign x) := by
  rcases nonneg.eq_or_lt with rfl | positive
  · rw [nearest_zero]
    have zero : signed sign 0 = 0 := by cases sign <;> rfl
    rw [zero]
    exact rounds_zero sign
  rcases Nat.eq_zero_or_pos (halfEven (x / 2 ^ place spec x)) with none | some
  · have gone : onGrid spec x = 0 := by rw [onGrid, none, Nat.cast_zero, zero_mul]
    rw [nearest, none, settle_zero]
    refine ⟨(rounds_zero sign).isNumber, ?_⟩
    rw [(rounds_zero sign).value_eq, rounded_signed sign nonneg, gone, rounded_zero,
      min_eq_left (bound_pos spec).le]
    cases sign <;> rfl
  have full : 2 ^ spec.mantissaBitsWithoutImplicit ≤ halfEven (x / 2 ^ place spec x) ∨
      place spec x = spec.minExponent := by
    by_cases lowest : place spec x = spec.minExponent
    · exact .inr lowest
    · exact .inl (pow_le_halfEven positive lowest)
  obtain ⟨m, e, h, settled, canonical, exact⟩ := settle_rounded sign some
    (halfEven_le_pow positive) (minExponent_le_place spec x) full
  have grid : onGrid spec x = m * 2 ^ e := exact.symm
  rw [nearest, settled]
  by_cases coded : e + spec.exponentBias + spec.mantissaBitsWithoutImplicit + 1 <
      2 ^ spec.exponentBits
  · have stored : Stored spec m e := ⟨canonical, coded⟩
    rw [unpack_pack_stored h stored]
    refine ⟨rfl, ?_⟩
    rw [rounded_signed sign nonneg, grid, min_eq_left stored.lt_bound.le]
    rfl
  · rw [unpack_pack_large h (not_lt.1 coded)]
    refine ⟨rfl, ?_⟩
    rw [rounded_signed sign nonneg, grid,
      min_eq_right (bound_le_of_large wide h canonical (not_lt.1 coded))]
    rfl

end WaveBus.Rounding
