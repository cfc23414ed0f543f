import WaveBus.Proofs.Rounding.Value

/-! # Operations on values

On finite numbers each operation gives the number nearest to the exact result, and the
order of numbers is the order of their values.
-/

namespace WaveBus.Rounding

open Float.Model (Format UnpackedFloat totalExponent)
open Float.Model.UnpackedFloat

variable {spec : Format} {u v : UnpackedFloat}

theorem magnitude_pos {m : ℕ} (positive : 0 < m) (e : ℤ) : (0 : ℚ) < m * 2 ^ e :=
  mul_pos (Nat.cast_pos.2 positive) (zpow_pos two_pos e)

/-- Digits are added as far as the place to which the number will be rounded. -/
theorem rounds_round (wide : 2 ≤ spec.exponentBits) (sign : Sign) {m : ℕ} (positive : 0 < m)
    (e : ℤ) :
    Rounds spec (unpack spec (pack spec (UnpackedFloat.round spec sign m e)))
      (signed sign (m * 2 ^ e)) := by
  have magnitude := magnitude_pos positive e
  have target : place spec (m * 2 ^ e) = spec.targetExponent (totalExponent m e) :=
    place_natCast spec positive e
  have lowered : e - ((e - place spec (m * 2 ^ e)).toNat : ℤ) = min e (place spec (m * 2 ^ e)) := by
    omega
  have exact : (m : ℚ) * 2 ^ e / 2 ^ min e (place spec (m * 2 ^ e)) =
      (m <<< (e - place spec (m * 2 ^ e)).toNat : ℕ) := by
    rw [← lowered, zpow_sub₀ two_ne_zero, Nat.shiftLeft_eq]
    push_cast
    rw [zpow_natCast]
    field_simp
  have nearest_eq : UnpackedFloat.round spec sign m e = nearest spec sign (m * 2 ^ e) := by
    rw [UnpackedFloat.round]
    simp only [decreaseExponent, ← target, lowered]
    apply roundWithAccuracy_eq_nearest spec sign magnitude
    · rw [exact]
      exact describes_exact _
    · exact min_le_right _ _
  rw [nearest_eq]
  exact rounds_nearest wide sign magnitude.le

theorem rounds_normalize (wide : 2 ≤ spec.exponentBits) (n : ℤ) (e : ℤ) (zeroSign : Sign) :
    Rounds spec (unpack spec (pack spec (UnpackedFloat.normalize spec n e zeroSign))) (n * 2 ^ e) := by
  rw [UnpackedFloat.normalize]
  rcases lt_trichotomy n 0 with negative | rfl | positive
  · have magnitude : (n : ℚ) * 2 ^ e = signed .negative ((-n).toNat * 2 ^ e) := by
      have whole : (((-n).toNat : ℤ) : ℚ) = ((-n : ℤ) : ℚ) := by rw [Int.toNat_of_nonneg (by omega)]
      rw [Int.cast_natCast, Int.cast_neg] at whole
      rw [signed, whole, neg_mul, neg_neg]
    rw [compare_lt_iff_lt.2 negative, magnitude]
    exact rounds_round wide .negative (by omega) e
  · rw [Int.cast_zero, zero_mul]
    exact rounds_zero zeroSign
  · have magnitude : (n : ℚ) * 2 ^ e = signed .positive (n.toNat * 2 ^ e) := by
      have whole : ((n.toNat : ℤ) : ℚ) = (n : ℚ) := by rw [Int.toNat_of_nonneg positive.le]
      rw [Int.cast_natCast] at whole
      rw [signed, whole]
    rw [compare_gt_iff_gt.2 positive, magnitude]
    exact rounds_round wide .positive (by omega) e

theorem aligned (sign : Sign) (m : ℕ) {e least : ℤ} (h : least ≤ e) :
    ((sign.apply (decreaseExponent m e least).1 : ℤ) : ℚ) * 2 ^ least = signed sign (m * 2 ^ e) := by
  have shift : ((e - least).toNat : ℤ) = e - least := by omega
  have grown : ((m <<< (e - least).toNat : ℕ) : ℚ) * 2 ^ least = m * 2 ^ e := by
    rw [Nat.shiftLeft_eq]
    push_cast
    rw [← zpow_natCast, shift, mul_assoc, ← zpow_add₀ two_ne_zero, sub_add_cancel]
  rw [cast_apply, decreaseExponent, ← grown]
  cases sign
  · exact neg_mul _ _
  · rfl

theorem rounds_add (wide : 2 ≤ spec.exponentBits) (hu : IsStored spec u) (hv : IsStored spec v)
    (finite_u : u.isFinite = true) (finite_v : v.isFinite = true) :
    Rounds spec (unpack spec (pack spec (UnpackedFloat.add spec u v)))
      (value spec u + value spec v) := by
  cases u with
  | infinity | notANumber => cases finite_u
  | zero s =>
      cases v with
      | infinity | notANumber => cases finite_v
      | zero t =>
          rw [value, value, add_zero]
          cases s <;> cases t <;> exact rounds_zero _
      | finite t m e positive =>
          rw [value, zero_add]
          show Rounds spec (unpack spec (pack spec (.finite t m e positive))) _
          rw [hv.unpack_pack]
          exact rounds_value hv rfl
  | finite s m e positive =>
      cases v with
      | infinity | notANumber => cases finite_v
      | zero t =>
          rw [value, value, add_zero]
          show Rounds spec (unpack spec (pack spec (.finite s m e positive))) _
          rw [hu.unpack_pack]
          exact rounds_value hu rfl
      | finite t n f positive' =>
          have sum := rounds_normalize wide (s.apply (decreaseExponent m e (min e f)).1 +
            t.apply (decreaseExponent n f (min e f)).1) (min e f) .positive
          rw [Int.cast_add, add_mul, aligned s m (min_le_left e f),
            aligned t n (min_le_right e f)] at sum
          exact sum

/-! ## Differences -/

theorem sub_eq_add (spec : Format) (u v : UnpackedFloat) :
    UnpackedFloat.sub spec u v = UnpackedFloat.add spec u v.neg := by
  have apply_neg : ∀ (s : Sign) (n : ℤ), (-s).apply n = -s.apply n := by
    rintro (_ | _) n
    · exact (neg_neg n).symm
    · rfl
  cases u with
  | infinity s | zero s =>
      cases v with
      | infinity t | zero t => rfl
      | notANumber | finite => rfl
  | notANumber => cases v <;> rfl
  | finite s m e positive =>
      cases v with
      | infinity | notANumber | zero => rfl
      | finite t n f positive' =>
          simp only [UnpackedFloat.sub, UnpackedFloat.neg, UnpackedFloat.add, apply_neg]
          rfl

theorem value_neg (u : UnpackedFloat) : value spec u.neg = -value spec u := by
  cases u with
  | infinity s | finite s => exact signed_neg s _
  | notANumber | zero => exact neg_zero.symm

theorem IsStored.neg (h : IsStored spec u) : IsStored spec u.neg := by
  cases u with
  | finite => exact h
  | infinity | notANumber | zero => trivial

theorem rounds_sub (wide : 2 ≤ spec.exponentBits) (hu : IsStored spec u) (hv : IsStored spec v)
    (finite_u : u.isFinite = true) (finite_v : v.isFinite = true) :
    Rounds spec (unpack spec (pack spec (UnpackedFloat.sub spec u v)))
      (value spec u - value spec v) := by
  have finite_neg : v.neg.isFinite = true := by cases v <;> exact finite_v
  rw [sub_eq_add, sub_eq_add_neg, ← value_neg]
  exact rounds_add wide hu hv.neg finite_u finite_neg

/-! ## Products and quotients -/

/-- The product of two significands has enough digits. -/
theorem early_product {m n : ℕ} {e f : ℤ} (positive : 0 < m) (positive' : 0 < n)
    (hm : Stored spec m e) (hn : Stored spec n f) :
    e + f ≤ place spec ((m * n : ℕ) * 2 ^ (e + f)) := by
  have digits : max m.log2 n.log2 ≤ (m * n).log2 := by
    rw [max_le_iff]
    constructor <;> rw [Nat.le_log2 (Nat.mul_pos positive positive').ne']
    · exact (Nat.log2_self_le positive.ne').trans (Nat.le_mul_of_pos_right m positive')
    · exact (Nat.log2_self_le positive'.ne').trans (Nat.le_mul_of_pos_left n positive)
  have left := canonical_iff.1 hm.canonical
  have right := canonical_iff.1 hn.canonical
  have least := minExponent_eq spec
  have some := spec.hm
  rw [place_natCast spec (Nat.mul_pos positive positive')]
  simp only [Format.targetExponent, totalExponent, Format.mantissaBits]
  omega

theorem rounds_mul (wide : 2 ≤ spec.exponentBits) (hu : IsStored spec u) (hv : IsStored spec v)
    (finite_u : u.isFinite = true) (finite_v : v.isFinite = true) :
    Rounds spec (unpack spec (pack spec (UnpackedFloat.mul spec u v)))
      (value spec u * value spec v) := by
  cases u with
  | infinity | notANumber => cases finite_u
  | zero s =>
      rw [value, zero_mul]
      cases v with
      | infinity | notANumber => cases finite_v
      | zero | finite => exact rounds_zero _
  | finite s m e positive =>
      cases v with
      | infinity | notANumber => cases finite_v
      | zero t =>
          rw [value, value, mul_zero]
          exact rounds_zero _
      | finite t n f positive' =>
          have exact : (m : ℚ) * 2 ^ e * (n * 2 ^ f) = (m * n : ℕ) * 2 ^ (e + f) := by
            rw [zpow_add₀ two_ne_zero]
            push_cast
            ring
          rw [value, value, signed_mul, exact,
            mul_eq_nearest spec s t positive positive' (early_product positive positive' hu hv)]
          exact rounds_nearest wide _ (magnitude_pos (Nat.mul_pos positive positive') _).le

theorem rounds_div (wide : 2 ≤ spec.exponentBits)
    (finite_u : u.isFinite = true) (finite_v : v.isFinite = true) (nonzero : value spec v ≠ 0) :
    Rounds spec (unpack spec (pack spec (UnpackedFloat.div spec u v)))
      (value spec u / value spec v) := by
  cases v with
  | infinity | notANumber => cases finite_v
  | zero => exact absurd rfl nonzero
  | finite t n f positive' =>
      cases u with
      | infinity | notANumber => cases finite_u
      | zero s =>
          rw [value, zero_div]
          exact rounds_zero _
      | finite s m e positive =>
          rw [value, value, signed_div, div_eq_nearest spec s t positive positive']
          exact rounds_nearest wide _
            (div_pos (magnitude_pos positive e) (magnitude_pos positive' f)).le

/-! ## Order -/

theorem some_compare_lt {x y : ℚ} (h : x < y) : some .lt = some (compare x y) :=
  congrArg some (compare_lt_iff_lt.2 h).symm

theorem some_compare_gt {x y : ℚ} (h : y < x) : some .gt = some (compare x y) :=
  congrArg some (compare_gt_iff_gt.2 h).symm

theorem some_compare_self (x : ℚ) : some .eq = some (compare x x) :=
  congrArg some (compare_eq_iff_eq.2 rfl).symm

/-- Of two stored numbers the one with the larger exponent is larger: it has all its digits. -/
theorem lt_of_exponent_lt {m n : ℕ} {e f : ℤ} (positive' : 0 < n) (hm : Stored spec m e)
    (hn : Stored spec n f) (h : e < f) : (m : ℚ) * 2 ^ e < n * 2 ^ f := by
  have left := canonical_iff.1 hm.canonical
  have right := canonical_iff.1 hn.canonical
  calc
    (m : ℚ) * 2 ^ e < 2 ^ (m.log2 + 1 : ℤ) * 2 ^ e :=
      mul_lt_mul_of_pos_right (lt_pow_log2 m) (zpow_pos two_pos e)
    _ = 2 ^ (m.log2 + 1 + e : ℤ) := (zpow_add₀ two_ne_zero _ _).symm
    _ ≤ 2 ^ (n.log2 + f : ℤ) := zpow_le_zpow_right₀ one_le_two (by omega)
    _ = 2 ^ (n.log2 : ℤ) * 2 ^ f := zpow_add₀ two_ne_zero _ _
    _ ≤ n * 2 ^ f := mul_le_mul_of_nonneg_right (pow_log2_le positive') (zpow_pos two_pos f).le

theorem compare_magnitude {m n : ℕ} {e f : ℤ} (positive : 0 < m) (positive' : 0 < n)
    (hm : Stored spec m e) (hn : Stored spec n f) :
    (compare e f).then (compare m n) = compare ((m : ℚ) * 2 ^ e) (n * 2 ^ f) := by
  rcases lt_trichotomy e f with below | rfl | above
  · rw [compare_lt_iff_lt.2 below, compare_lt_iff_lt.2 (lt_of_exponent_lt positive' hm hn below)]
    rfl
  · have scale : (0 : ℚ) < 2 ^ e := zpow_pos two_pos e
    rw [compare_eq_iff_eq.2 rfl]
    rcases lt_trichotomy m n with below | rfl | above
    · have below' : (m : ℚ) < n := by exact_mod_cast below
      rw [compare_lt_iff_lt.2 below, compare_lt_iff_lt.2 (mul_lt_mul_of_pos_right below' scale)]
      rfl
    · rw [compare_eq_iff_eq.2 rfl, compare_eq_iff_eq.2 rfl]
      rfl
    · have above' : (n : ℚ) < m := by exact_mod_cast above
      rw [compare_gt_iff_gt.2 above, compare_gt_iff_gt.2 (mul_lt_mul_of_pos_right above' scale)]
      rfl
  · rw [compare_gt_iff_gt.2 above, compare_gt_iff_gt.2 (lt_of_exponent_lt positive hn hm above)]
    rfl

theorem compare_neg_neg (x y : ℚ) : compare (-x) (-y) = (compare x y).swap := by
  rcases lt_trichotomy x y with below | rfl | above
  · rw [compare_lt_iff_lt.2 below, compare_gt_iff_gt.2 (neg_lt_neg below)]
    rfl
  · rw [compare_eq_iff_eq.2 rfl, compare_eq_iff_eq.2 rfl]
    rfl
  · rw [compare_gt_iff_gt.2 above, compare_lt_iff_lt.2 (neg_lt_neg above)]
    rfl

/-- The value of a finite number is inside the bound. -/
theorem abs_value_lt_bound (hu : IsStored spec u) (finite : u.isFinite = true) :
    |value spec u| < bound spec := by
  cases u with
  | infinity | notANumber => cases finite
  | zero => simpa only [value, abs_zero] using bound_pos spec
  | finite s m e positive =>
      rw [value, abs_signed s (magnitude_pos positive e).le]
      exact Stored.lt_bound hu

theorem isNaN_of_isFinite (finite : u.isFinite = true) : u.isNaN = false := by
  cases u with
  | notANumber | infinity => cases finite
  | zero | finite => rfl

/-- Finite numbers are those inside the bound. -/
theorem isFinite_iff_value (hu : IsStored spec u) (number : u.isNaN = false) :
    u.isFinite = true ↔ |value spec u| < bound spec := by
  refine ⟨abs_value_lt_bound hu, fun inside => ?_⟩
  cases u with
  | notANumber => cases number
  | infinity s =>
      rw [value, abs_signed s (bound_pos spec).le] at inside
      exact absurd inside (lt_irrefl _)
  | zero | finite => rfl

/-- A result that has few enough digits is finite and exact. -/
theorem Rounds.exact {n : ℕ} {e : ℤ} (h : Rounds spec u (n * 2 ^ e)) (stored : IsStored spec u)
    (digits : n < 2 ^ spec.mantissaBits) (least : spec.minExponent ≤ e)
    (inside : (n : ℚ) * 2 ^ e < bound spec) :
    u.isFinite = true ∧ value spec u = n * 2 ^ e := by
  have value_eq := h.value_eq.trans (rounded_digits .positive digits least inside.le)
  have magnitude : (0 : ℚ) ≤ n * 2 ^ e := mul_nonneg (Nat.cast_nonneg n) (zpow_pos two_pos e).le
  refine ⟨?_, value_eq⟩
  rw [isFinite_iff_value stored h.isNumber, value_eq, abs_signed _ magnitude]
  exact inside

theorem finite_of_pos (finite : u.isFinite = true) (positive : 0 < value spec u) :
    ∃ m e h, u = .finite .positive m e h := by
  cases u with
  | notANumber | infinity => cases finite
  | zero => exact absurd positive (lt_irrefl 0)
  | finite sign m e h =>
      cases sign with
      | negative => exact absurd positive (neg_neg_of_pos (magnitude_pos h e)).not_gt
      | positive => exact ⟨m, e, h, rfl⟩

/-- Numbers are compared by their values. -/
theorem compare_eq_compare_value (hu : IsStored spec u) (hv : IsStored spec v)
    (number_u : u.isNaN = false) (number_v : v.isNaN = false) :
    u.compare v = some (compare (value spec u) (value spec v)) := by
  have top := bound_pos spec
  have inside : ∀ {w}, IsStored spec w → w.isFinite = true →
      -bound spec < value spec w ∧ value spec w < bound spec :=
    fun h finite => abs_lt.1 (abs_value_lt_bound h finite)
  match u, v with
  | .infinity .positive, .infinity .positive => exact some_compare_self _
  | .infinity .positive, .infinity .negative => exact some_compare_gt (neg_lt_self top)
  | .infinity .negative, .infinity .positive => exact some_compare_lt (neg_lt_self top)
  | .infinity .negative, .infinity .negative => exact some_compare_self _
  | .infinity .positive, .zero _ | .infinity .positive, .finite .. =>
      exact some_compare_gt (inside hv rfl).2
  | .infinity .negative, .zero _ | .infinity .negative, .finite .. =>
      exact some_compare_lt (inside hv rfl).1
  | .zero _, .infinity .positive | .finite .., .infinity .positive =>
      exact some_compare_lt (inside hu rfl).2
  | .zero _, .infinity .negative | .finite .., .infinity .negative =>
      exact some_compare_gt (inside hu rfl).1
  | .zero _, .zero _ => exact some_compare_self _
  | .zero _, .finite .positive _ e positive => exact some_compare_lt (magnitude_pos positive e)
  | .zero _, .finite .negative _ e positive =>
      exact some_compare_gt (neg_neg_of_pos (magnitude_pos positive e))
  | .finite .positive _ e positive, .zero _ => exact some_compare_gt (magnitude_pos positive e)
  | .finite .negative _ e positive, .zero _ =>
      exact some_compare_lt (neg_neg_of_pos (magnitude_pos positive e))
  | .finite .positive _ e positive, .finite .negative _ f positive' =>
      exact some_compare_gt
        ((neg_neg_of_pos (magnitude_pos positive' f)).trans (magnitude_pos positive e))
  | .finite .negative _ e positive, .finite .positive _ f positive' =>
      exact some_compare_lt
        ((neg_neg_of_pos (magnitude_pos positive e)).trans (magnitude_pos positive' f))
  | .finite .positive _ _ positive, .finite .positive _ _ positive' =>
      exact congrArg some (compare_magnitude positive positive' hu hv)
  | .finite .negative _ _ positive, .finite .negative _ _ positive' =>
      refine congrArg some ?_
      rw [value, value, signed, signed, compare_neg_neg,
        ← compare_magnitude positive positive' hu hv]

theorem le_iff_value_le (hu : IsStored spec u) (hv : IsStored spec v)
    (number_u : u.isNaN = false) (number_v : v.isNaN = false) :
    u.le v = true ↔ value spec u ≤ value spec v := by
  rw [UnpackedFloat.le, compare_eq_compare_value hu hv number_u number_v, Option.any_some,
    Ordering.isLE_iff_ne_gt, compare_gt_iff_gt, not_lt]

theorem lt_iff_value_lt (hu : IsStored spec u) (hv : IsStored spec v)
    (number_u : u.isNaN = false) (number_v : v.isNaN = false) :
    u.lt v = true ↔ value spec u < value spec v := by
  rw [UnpackedFloat.lt, compare_eq_compare_value hu hv number_u number_v, beq_iff_eq,
    Option.some.injEq, compare_lt_iff_lt]

end WaveBus.Rounding
