import WaveBus.Proofs.Single.Packing
import WaveBus.Proofs.Single.Value

/-! # Operations keep the order

Sums, and products and quotients by positive numbers, keep the order of singles although each
is rounded. An infinite operand goes through unchanged, so the order is kept up to overflow and
beyond. Only an infinity that meets its opposite, or a zero, makes a NaN, and the premises on
finite operands rule that out.
-/

namespace WaveBus.Single

open Float.Model (Format UnpackedFloat)
open Float.Model.UnpackedFloat (Sign)

variable {x x' y y' w n : Float32}

@[simp] theorem value_zero : value 0.0 = 0 := rfl

@[simp] theorem value_one : value 1.0 = 1 := by
  show ((8388608 : ℕ) : ℚ) * 2 ^ (-23 : ℤ) = 1
  norm_num

theorem rounds_zero : Rounds 0.0 0 := rounds_self rfl

theorem rounds_one : Rounds 1.0 1 := by
  rw [← value_one]
  exact rounds_self rfl

theorem isFinite_zero : (0.0 : Float32).isFinite = true := rfl

theorem isFinite_one : (1.0 : Float32).isFinite = true := rfl

theorem value_nonneg (h : 0.0 ≤ x) : 0 ≤ value x := value_zero ▸ value_le_of_le h

theorem value_pos (h : 0.0 < x) : 0 < value x := value_zero ▸ value_lt_of_lt h

/-- Numbers of the same value are the same single, except for the two zeros. -/
theorem eq_of_value_eq (number_x : x.isNaN = false) (number_y : y.isNaN = false)
    (same : value x = value y) (nonzero : value x ≠ 0) : x = y := by
  have equal : x.toModel.unpack.beq y.toModel.unpack = true := by
    rw [UnpackedFloat.beq, compare_unpack number_x number_y, compare_eq_iff_eq.2 same]
    rfl
  rcases ((Float.Model.UnpackedFloat.beq_iff_ne_notANumber_and_eq _ _).1 equal).2.2 with
    eq | ⟨zero, -⟩ | ⟨zero, -⟩
  · rw [← pack_unpack x, eq, pack_unpack]
  · exact absurd (by rw [value, zero]; rfl) nonzero
  · exact absurd (by rw [value, zero]; rfl) nonzero

/-- What compares equal to zero is one of the two zeros. -/
theorem eq_zero_of_beq (h : x == 0.0) : x = 0.0 ∨ x = -0.0 := by
  change x.toModel.unpack.beq (.zero .positive) = true at h
  rcases ((Float.Model.UnpackedFloat.beq_iff_ne_notANumber_and_eq _ _).1 h).2.2 with
    eq | ⟨-, sign⟩ | ⟨eq, -⟩
  · left
    rw [← pack_unpack x, eq]
    rfl
  · cases sign
  · right
    rw [← pack_unpack x, eq]
    rfl

theorem unpack_of_isInf (h : x.isInf = true) : ∃ sign, x.toModel.unpack = .infinity sign := by
  change x.toModel.unpack.isInf = true at h
  cases hx : x.toModel.unpack with
  | infinity sign => exact ⟨sign, rfl⟩
  | notANumber | zero | finite =>
      rw [hx] at h
      cases h

theorem abs_value_of_isInf (h : x.isInf = true) : |value x| = Rounding.bound Format.binary32 := by
  obtain ⟨sign, hx⟩ := unpack_of_isInf h
  rw [value, hx, Rounding.value, Rounding.abs_signed sign (Rounding.bound_pos _).le]

theorem abs_value_le_bound (number : x.isNaN = false) :
    |value x| ≤ Rounding.bound Format.binary32 := by
  rcases isFinite_or_isInf number with finite | infinite
  · exact ((isFinite_iff_value number).1 finite).le
  · exact (abs_value_of_isInf infinite).le

/-- Two operations that leave infinities alone keep the order if they keep it on finite singles. -/
theorem le_of_le_on_finite {f g : Float32 → Float32}
    (fixed_f : ∀ x : Float32, x.isInf = true → f x = x)
    (fixed_g : ∀ x : Float32, x.isInf = true → g x = x)
    (number_f : ∀ x : Float32, x.isFinite = true → (f x).isNaN = false)
    (number_g : ∀ x : Float32, x.isFinite = true → (g x).isNaN = false)
    (finite : ∀ x y : Float32, x.isFinite = true → y.isFinite = true → x ≤ y → f x ≤ g y)
    (h : x ≤ y) : f x ≤ g y := by
  have number_x := isNaN_left_of_le h
  have number_y := isNaN_right_of_le h
  have order := value_le_of_le h
  rcases isFinite_or_isInf number_x with finite_x | infinite_x <;>
    rcases isFinite_or_isInf number_y with finite_y | infinite_y
  · exact finite x y finite_x finite_y h
  · have inside := abs_lt.1 ((isFinite_iff_value number_x).1 finite_x)
    have outside := le_abs.1 (abs_value_of_isInf infinite_y).ge
    have below := abs_le.1 (abs_value_le_bound (number_f x finite_x))
    rw [fixed_g y infinite_y, le_iff_value_le (number_f x finite_x) number_y]
    rcases outside with top | bottom <;> linarith
  · have inside := abs_lt.1 ((isFinite_iff_value number_y).1 finite_y)
    have outside := le_abs.1 (abs_value_of_isInf infinite_x).ge
    have above := abs_le.1 (abs_value_le_bound (number_g y finite_y))
    rw [fixed_f x infinite_x, le_iff_value_le number_x (number_g y finite_y)]
    rcases outside with top | bottom <;> linarith
  · rw [fixed_f x infinite_x, fixed_g y infinite_y]
    exact h

/-! ## Sums -/

theorem add_of_isInf (finite : x.isFinite = true) (infinite : y.isInf = true) : x + y = y := by
  obtain ⟨sign, hy⟩ := unpack_of_isInf infinite
  change x.toModel.unpack.isFinite = true at finite
  have sum : UnpackedFloat.add Format.binary32 x.toModel.unpack y.toModel.unpack =
      y.toModel.unpack := by
    rw [hy]
    cases hx : x.toModel.unpack with
    | notANumber | infinity =>
        rw [hx] at finite
        cases finite
    | zero | finite => rfl
  show Float32.ofModel (.pack (UnpackedFloat.add Format.binary32 _ _)) = y
  rw [sum, pack_unpack]

protected theorem add_le_add (finite : x.isFinite = true) (finite' : x'.isFinite = true) (h : x ≤ x')
    (k : y ≤ y') : x + y ≤ x' + y' := by
  refine le_of_le_on_finite (fun y => add_of_isInf finite) (fun y => add_of_isInf finite')
    (fun y hy => (rounds_add finite hy).isNumber) (fun y hy => (rounds_add finite' hy).isNumber)
    (fun y y' hy hy' k => ?_) k
  exact le_of_rounds (rounds_add finite hy) (rounds_add finite' hy')
    (add_le_add (value_le_of_le h) (value_le_of_le k))

/-- No single but zero is nearer to zero than the least one. -/
theorem least_le_abs_value (finite : x.isFinite = true) (nonzero : value x ≠ 0) :
    2 ^ (-149 : ℤ) ≤ |value x| := by
  change x.toModel.unpack.isFinite = true at finite
  have stored := isStored x
  rw [value] at nonzero ⊢
  cases hx : x.toModel.unpack with
  | notANumber | infinity =>
      rw [hx] at finite
      cases finite
  | zero =>
      rw [hx] at nonzero
      exact absurd rfl nonzero
  | finite sign m e positive =>
      rw [hx] at stored
      have least := (Rounding.canonical_iff.1 (Rounding.Stored.canonical stored)).2.1
      have digit : (1 : ℚ) ≤ m := by exact_mod_cast positive
      rw [Rounding.value, Rounding.abs_signed sign (Rounding.magnitude_pos positive e).le]
      calc
        (2 : ℚ) ^ (-149 : ℤ) ≤ 2 ^ e := zpow_le_zpow_right₀ one_le_two least
        _ ≤ m * 2 ^ e := le_mul_of_one_le_left (zpow_pos two_pos e).le digit

/-- A single below one is below it by half a step of the grid above one, at least. -/
theorem value_le_of_lt_one (below : x < 1.0) : value x ≤ 1 - 2 ^ (-24 : ℤ) := by
  have upper : value x < 1 := value_one ▸ value_lt_of_lt below
  rcases le_or_gt (value x) 0 with nonpos | positive
  · exact nonpos.trans (by norm_num)
  have finite : x.isFinite = true := by
    rw [isFinite_iff_value (isNaN_left_of_le (le_of_lt below)), abs_of_pos positive]
    exact upper.trans (one_lt_pow₀ one_lt_two (by decide))
  obtain ⟨m, e, h, hx⟩ := Rounding.finite_of_pos finite positive
  have stored := isStored x
  rw [hx] at stored
  obtain ⟨short, -, full⟩ := Rounding.canonical_iff.1 (Rounding.Stored.canonical stored)
  rw [value, hx, Rounding.value, Rounding.signed] at upper ⊢
  -- a larger exponent comes with all digits, and they make one at least
  have low : e ≤ -24 := by
    by_contra high
    have log : m.log2 = 23 := full.resolve_right fun lowest => by
      rw [lowest] at high
      exact high (by decide)
    have digits : (2 : ℚ) ^ 23 ≤ m := by exact_mod_cast (Nat.le_log2 h.ne').1 log.ge
    refine upper.not_ge ?_
    calc
      (1 : ℚ) = 2 ^ 23 * 2 ^ (-23 : ℤ) := by norm_num
      _ ≤ m * 2 ^ e := mul_le_mul digits (zpow_le_zpow_right₀ one_le_two (by omega))
        (zpow_pos two_pos _).le (Nat.cast_nonneg m)
  have digits : m < 2 ^ 24 := (Nat.log2_lt h.ne').1 (Nat.lt_succ_of_le short)
  calc
    (m : ℚ) * 2 ^ e ≤ (2 ^ 24 - 1 : ℕ) * 2 ^ (-24 : ℤ) :=
      mul_le_mul (by exact_mod_cast Nat.le_sub_one_of_lt digits)
        (zpow_le_zpow_right₀ one_le_two low) (zpow_pos two_pos e).le (Nat.cast_nonneg _)
    _ = 1 - 2 ^ (-24 : ℤ) := by norm_num

/-- The largest finite single. -/
def largest : Float32 := .ofBits 0x7f7fffff

theorem abs_value_le_largest (finite : x.isFinite = true) :
    |value x| ≤ ((2 ^ 24 - 1 : ℕ) : ℚ) * 2 ^ (104 : ℤ) := by
  change x.toModel.unpack.isFinite = true at finite
  have stored := isStored x
  rw [value]
  cases hx : x.toModel.unpack with
  | notANumber | infinity =>
      rw [hx] at finite
      cases finite
  | zero =>
      rw [Rounding.value, abs_zero]
      positivity
  | finite sign m e positive =>
      rw [hx] at stored
      have coded : e + 127 + 23 + 1 < 256 := Rounding.Stored.coded stored
      have short : m.log2 ≤ 23 := (Rounding.canonical_iff.1 (Rounding.Stored.canonical stored)).1
      have digits : m < 2 ^ 24 := (Nat.log2_lt positive.ne').1 (by omega)
      rw [Rounding.value, Rounding.abs_signed sign (Rounding.magnitude_pos positive e).le]
      apply mul_le_mul _ (zpow_le_zpow_right₀ one_le_two (by omega)) (zpow_pos two_pos e).le
        (Nat.cast_nonneg _)
      exact_mod_cast (by omega : m ≤ 2 ^ 24 - 1)

theorem between_largest (finite : x.isFinite = true) : -largest ≤ x ∧ x ≤ largest := by
  have upper : value largest = ((2 ^ 24 - 1 : ℕ) : ℚ) * 2 ^ (104 : ℤ) := rfl
  have lower : value (-largest) = -(((2 ^ 24 - 1 : ℕ) : ℚ) * 2 ^ (104 : ℤ)) := rfl
  have inside := abs_le.1 (abs_value_le_largest finite)
  rw [← lower, ← upper] at inside
  have number := isNaN_of_isFinite finite
  exact ⟨(le_iff_value_le rfl number).2 inside.1, (le_iff_value_le number rfl).2 inside.2⟩

/-- A few units do not make the largest number overflow. -/
theorem isFinite_add_small (lower : 0.0 ≤ x) (upper : x ≤ 16.0) (finite : y.isFinite = true) :
    (x + y).isFinite = true := by
  have finite_x := isFinite_of_between isFinite_zero (by decide) lower upper
  have low := Single.add_le_add isFinite_zero finite_x lower (between_largest finite).1
  have high := Single.add_le_add finite_x (by decide) upper (between_largest finite).2
  exact isFinite_of_between (by decide +kernel) (by decide +kernel) low high

/-! ## Products -/

theorem unpack_of_pos (finite : x.isFinite = true) (positive : 0.0 < x) :
    ∃ m e h, x.toModel.unpack = .finite .positive m e h :=
  Rounding.finite_of_pos finite (value_pos positive)

theorem mul_of_isInf (infinite : x.isInf = true) (finite : w.isFinite = true) (positive : 0.0 < w) :
    x * w = x := by
  obtain ⟨sign, hx⟩ := unpack_of_isInf infinite
  obtain ⟨m, e, h, hw⟩ := unpack_of_pos finite positive
  have product : UnpackedFloat.mul Format.binary32 x.toModel.unpack w.toModel.unpack =
      x.toModel.unpack := by
    rw [hx, hw]
    cases sign <;> rfl
  show Float32.ofModel (.pack (UnpackedFloat.mul Format.binary32 _ _)) = x
  rw [product, pack_unpack]

/-- A finite number times one that is not negative. -/
theorem mul_le_mul_of_finite (finite : x.isFinite = true) (finite' : x'.isFinite = true)
    (finite_w : w.isFinite = true) (nonneg : 0.0 ≤ w) (h : x ≤ x') : x * w ≤ x' * w :=
  le_of_rounds (rounds_mul finite finite_w) (rounds_mul finite' finite_w)
    (mul_le_mul_of_nonneg_right (value_le_of_le h) (value_nonneg nonneg))

protected theorem mul_le_mul_left (finite_w : w.isFinite = true) (finite : x.isFinite = true)
    (finite' : x'.isFinite = true) (nonneg : 0.0 ≤ w) (h : x ≤ x') : w * x ≤ w * x' :=
  le_of_rounds (rounds_mul finite_w finite) (rounds_mul finite_w finite')
    (mul_le_mul_of_nonneg_left (value_le_of_le h) (value_nonneg nonneg))

protected theorem mul_le_mul_right (finite_w : w.isFinite = true) (positive : 0.0 < w)
    (h : x ≤ x') : x * w ≤ x' * w :=
  le_of_le_on_finite (f := (· * w)) (g := (· * w))
    (fun _ infinite => mul_of_isInf infinite finite_w positive)
    (fun _ infinite => mul_of_isInf infinite finite_w positive)
    (fun _ finite => (rounds_mul finite finite_w).isNumber)
    (fun _ finite => (rounds_mul finite finite_w).isNumber)
    (fun _ _ finite finite' => mul_le_mul_of_finite finite finite' finite_w (le_of_lt positive)) h

/-! ## Quotients -/

theorem div_of_isInf (infinite : x.isInf = true) (finite : n.isFinite = true) (positive : 0.0 < n) :
    x / n = x := by
  obtain ⟨sign, hx⟩ := unpack_of_isInf infinite
  obtain ⟨m, e, h, hn⟩ := unpack_of_pos finite positive
  have quotient : UnpackedFloat.div Format.binary32 x.toModel.unpack n.toModel.unpack =
      x.toModel.unpack := by
    rw [hx, hn]
    cases sign <;> rfl
  show Float32.ofModel (.pack (UnpackedFloat.div Format.binary32 _ _)) = x
  rw [quotient, pack_unpack]

protected theorem div_le_div_right (finite_n : n.isFinite = true) (positive : 0.0 < n)
    (h : x ≤ x') : x / n ≤ x' / n := by
  have above := value_pos positive
  refine le_of_le_on_finite (f := (· / n)) (g := (· / n))
    (fun _ infinite => div_of_isInf infinite finite_n positive)
    (fun _ infinite => div_of_isInf infinite finite_n positive)
    (fun _ finite => (rounds_div finite finite_n above.ne').isNumber)
    (fun _ finite => (rounds_div finite finite_n above.ne').isNumber) ?_ h
  intro x x' finite finite' k
  exact le_of_rounds (rounds_div finite finite_n above.ne') (rounds_div finite' finite_n above.ne')
    (div_le_div_of_nonneg_right (value_le_of_le k) above.le)

theorem rounds_div_of_isInf (finite : x.isFinite = true) (infinite : n.isInf = true) :
    Rounds (x / n) 0 := by
  obtain ⟨sign, hn⟩ := unpack_of_isInf infinite
  change x.toModel.unpack.isFinite = true at finite
  show Rounding.Rounds _ (UnpackedFloat.unpack Format.binary32 (UnpackedFloat.pack Format.binary32
    (UnpackedFloat.div Format.binary32 x.toModel.unpack n.toModel.unpack))) 0
  rw [hn]
  cases hx : x.toModel.unpack with
  | notANumber | infinity =>
      rw [hx] at finite
      cases finite
  | zero | finite => exact Rounding.rounds_zero _

/-- A quotient falls as the divisor grows, and is zero when the divisor has overflowed. -/
protected theorem div_le_div_left (finite : x.isFinite = true) (nonneg : 0.0 ≤ x)
    (positive : 0.0 < n) (h : n ≤ y) : x / y ≤ x / n ∧ 0.0 ≤ x / y := by
  have above := value_pos positive
  have order := value_le_of_le h
  have lower := value_nonneg nonneg
  rcases isFinite_or_isInf (isNaN_right_of_le h) with finite_y | infinite_y
  · have finite_n := isFinite_of_between isFinite_zero finite_y (le_of_lt positive) h
    have small := rounds_div finite finite_y (above.trans_le order).ne'
    have large := rounds_div finite finite_n above.ne'
    exact ⟨le_of_rounds small large (div_le_div_of_nonneg_left lower above order),
      le_of_rounds rounds_zero small (div_nonneg lower (above.le.trans order))⟩
  · have none := rounds_div_of_isInf finite infinite_y
    refine ⟨?_, le_of_rounds rounds_zero none le_rfl⟩
    rcases isFinite_or_isInf (isNaN_left_of_le h) with finite_n | infinite_n
    · exact le_of_rounds none (rounds_div finite finite_n above.ne') (div_nonneg lower above.le)
    · exact le_of_rounds none (rounds_div_of_isInf finite infinite_n) le_rfl

end WaveBus.Single
