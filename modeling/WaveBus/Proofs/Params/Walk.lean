import WaveBus.Proofs.Params.Factor

/-! # Steps that keep signs and zeros

A step scales every number by a factor. A zero stays the zero it is and an infinity the
infinity it is, and any other number keeps its sign: what it is scaled to lies between half
and twice its magnitude and does not sink to zero. So it is after any number of steps.
-/

namespace WaveBus

open Float.Model (Format UnpackedFloat)
open Rounding (rounded)

variable {x : Float32} {f : Float}

/-! ## Special values -/

theorem IsFactor.value_pos (factor : IsFactor f) : 0 < Double.value f := by
  have step : (0 : ℚ) < 2 ^ (-25 : ℤ) := zpow_pos two_pos _
  linarith [factor.lower]

/-- What is a special value in every format, and is kept by products, is kept. -/
theorem scaled_of_special (factor : IsFactor f) {u : UnpackedFloat} (hx : x.toModel.unpack = u)
    (stored : ∀ spec, Rounding.IsStored spec u) (same : ∀ spec, Double.resized spec u = u)
    (product : ∀ m e h, UnpackedFloat.mul Format.binary64 u (.finite .positive m e h) = u) :
    scaled x f = x := by
  obtain ⟨m, e, h, hf⟩ := Rounding.finite_of_pos factor.finite factor.value_pos
  have wide : (widen x).toModel.unpack = u := by
    rw [Double.unpack_widen, hx, same, (stored _).unpack_pack]
  have multiplied : (widen x * f).toModel.unpack = u := by
    show UnpackedFloat.unpack _ (UnpackedFloat.pack _ (UnpackedFloat.mul Format.binary64
      (widen x).toModel.unpack f.toModel.unpack)) = u
    rw [wide, hf, product, (stored _).unpack_pack]
  have kept : (scaled x f).toModel.unpack = x.toModel.unpack := by
    rw [scaled, Double.unpack_narrow, multiplied, same, (stored _).unpack_pack, hx]
  rw [← Single.pack_unpack (scaled x f), kept, Single.pack_unpack]

theorem scaled_of_zero (factor : IsFactor f) (zero : x == 0.0) : scaled x f = x := by
  have zeros : ∃ sign, x.toModel.unpack = .zero sign := by
    rcases Single.eq_zero_of_beq zero with rfl | rfl <;> exact ⟨_, rfl⟩
  obtain ⟨sign, hx⟩ := zeros
  exact scaled_of_special factor hx (fun _ => trivial) (fun _ => rfl)
    (fun _ _ _ => by cases sign <;> rfl)

theorem scaled_of_isInf (factor : IsFactor f) (infinite : x.isInf = true) : scaled x f = x := by
  obtain ⟨sign, hx⟩ := Single.unpack_of_isInf infinite
  exact scaled_of_special factor hx (fun _ => trivial) (fun _ => rfl)
    (fun _ _ _ => by cases sign <;> rfl)

/-! ## Finite values -/

/-- The product of doubles lies between half and twice the magnitude exactly. -/
theorem abs_product_between (factor : IsFactor f) (finite : x.isFinite = true) :
    |Single.value x| * 2 ^ (-1 : ℤ) ≤
        |rounded Format.binary64 (Single.value x * Double.value f)| ∧
      |rounded Format.binary64 (Single.value x * Double.value f)| ≤
        |Single.value x| * 2 ^ (1 : ℤ) := by
  have half := (Double.rounded_shifted (Single.isFinite_abs finite) (j := -1) le_rfl (by decide)).1
  have twice := (Double.rounded_shifted (Single.isFinite_abs finite) (j := 1) (by decide) le_rfl).1
  rw [Single.value_abs] at half twice
  have magnitude := abs_nonneg (Single.value x)
  have least : (2 : ℚ) ^ (-1 : ℤ) ≤ Double.value f := by
    have step : (0 : ℚ) < 2 ^ (-25 : ℤ) := zpow_pos two_pos _
    rw [zpow_neg_one, ← one_div]
    linarith [factor.lower]
  have most : Double.value f ≤ (2 : ℚ) ^ (1 : ℤ) := by
    rw [zpow_one]
    exact factor.upper
  rw [Rounding.abs_rounded, abs_mul, abs_of_pos factor.value_pos]
  exact ⟨half.ge.trans (Rounding.rounded_mono (mul_le_mul_of_nonneg_left least magnitude)),
    (Rounding.rounded_mono (mul_le_mul_of_nonneg_left most magnitude)).trans twice.le⟩

theorem rounds_scaled (factor : IsFactor f) (finite : x.isFinite = true) :
    Single.Rounds (scaled x f)
      (rounded Format.binary64 (Single.value x * Double.value f)) := by
  have product := Double.rounds_mul (Double.isFinite_widen finite) factor.finite
  rw [Double.value_widen finite] at product
  have inside : |rounded Format.binary64 (Single.value x * Double.value f)| <
      Rounding.bound Format.binary64 := by
    have room := (Double.rounded_shifted (Single.isFinite_abs finite) (j := 1) (by decide) le_rfl).2
    rw [Single.value_abs] at room
    exact (abs_product_between factor finite).2.trans_lt ((le_abs_self _).trans_lt room)
  have exact := Double.rounds_narrow (Double.isFinite_of_rounds product inside)
  rwa [Double.value, product.value_eq] at exact

/-- The magnitude of what a number is scaled to. -/
theorem abs_scaled_between (factor : IsFactor f) (finite : x.isFinite = true) :
    0.5 * x.abs ≤ (scaled x f).abs ∧ (scaled x f).abs ≤ 2.0 * x.abs := by
  obtain ⟨lower, upper⟩ := abs_product_between factor finite
  have scaled := Single.rounds_abs (rounds_scaled factor finite)
  have half := Single.rounds_mul Single.isFinite_half (Single.isFinite_abs finite)
  have twice := Single.rounds_mul (x := 2.0) rfl (Single.isFinite_abs finite)
  rw [Single.value_abs] at half twice
  rw [Single.value_half] at half
  rw [Single.value_two] at twice
  refine ⟨Single.le_of_rounds half scaled ?_, Single.le_of_rounds scaled twice ?_⟩
  · refine le_trans (le_of_eq ?_) lower
    rw [zpow_neg_one]
    ring
  · refine upper.trans (le_of_eq ?_)
    rw [zpow_one]
    ring

/-! ## Signs -/

/-- What a factor leaves of the least single: a little more than half of it. -/
def residue : ℚ := (2 ^ 24 + 1 : ℕ) * 2 ^ (-174 : ℤ)

theorem residue_eq : residue = 2 ^ (-149 : ℤ) * (1 / 2 + 2 ^ (-25 : ℤ)) := by
  rw [residue]
  norm_num

theorem rounded_residue : rounded Format.binary64 residue = residue := by
  have small : residue ≤ 2 := by
    rw [residue_eq]
    norm_num
  exact Rounding.rounded_digits .positive (by decide) (by decide)
    (small.trans Double.two_lt_bound.le)

/-- The tie between zero and the least single lies below. -/
theorem rounded_residue_pos : 0 < rounded Format.binary32 residue := by
  have positive : 0 < residue := by
    rw [residue_eq]
    positivity
  have small : residue < 2 ^ (-149 : ℤ) := by
    rw [residue_eq]
    norm_num
  have log := (Rounding.lt_pow_iff_log_lt positive _).1 small
  have place : Rounding.place Format.binary32 residue = -149 := by
    show max (Int.log 2 residue + 1 - 24) (-149) = -149
    omega
  have near : |Rounding.onGrid Format.binary32 residue - residue| ≤
      2 ^ Rounding.place Format.binary32 residue / 2 := Rounding.abs_onGrid_sub_le positive.le
  have above : 0 < Rounding.onGrid Format.binary32 residue := by
    have tie : (2 : ℚ) ^ (-149 : ℤ) / 2 < residue := by
      rw [residue_eq]
      norm_num
    rw [place] at near
    linarith [(abs_le.1 near).1]
  rw [Rounding.rounded_of_nonneg positive.le]
  exact lt_min above (Rounding.bound_pos _)

/-- Rounded twice, the product stays above the tie that the exact product is above. -/
theorem abs_scaled_pos (factor : IsFactor f) (finite : x.isFinite = true)
    (nonzero : Single.value x ≠ 0) : 0 < |Single.value (scaled x f)| := by
  have left : residue ≤ |Single.value x| * Double.value f := by
    rw [residue_eq]
    exact mul_le_mul (Single.least_le_abs_value finite nonzero) factor.lower (by positivity)
      (abs_nonneg _)
  have product : residue ≤ |rounded Format.binary64 (Single.value x * Double.value f)| := by
    rw [Rounding.abs_rounded, abs_mul, abs_of_pos factor.value_pos]
    exact rounded_residue.ge.trans (Rounding.rounded_mono left)
  rw [Single.value, (rounds_scaled factor finite).value_eq, Rounding.abs_rounded]
  exact rounded_residue_pos.trans_le (Rounding.rounded_mono product)

theorem scaled_pos (factor : IsFactor f) (positive : 0.0 < x) : 0.0 < scaled x f := by
  have number := Single.isNaN_right_of_le (Single.le_of_lt positive)
  have above := Single.value_pos positive
  rcases Single.isFinite_or_isInf number with finite | infinite
  · have rounds := rounds_scaled factor finite
    have nonneg : 0 ≤ Single.value (scaled x f) := by
      rw [Single.value, rounds.value_eq]
      exact Rounding.rounded_nonneg (Rounding.rounded_nonneg (mul_pos above factor.value_pos).le)
    have nonzero := abs_scaled_pos factor finite above.ne'
    rw [abs_of_nonneg nonneg] at nonzero
    exact (Single.lt_iff_value_lt rfl rounds.isNumber).2 nonzero
  · rw [scaled_of_isInf factor infinite]
    exact positive

theorem scaled_neg (factor : IsFactor f) (negative : x < 0.0) : scaled x f < 0.0 := by
  have number := Single.isNaN_left_of_le (Single.le_of_lt negative)
  have below : Single.value x < 0 := Single.value_lt_of_lt negative
  rcases Single.isFinite_or_isInf number with finite | infinite
  · have rounds := rounds_scaled factor finite
    have nonpos : Single.value (scaled x f) ≤ 0 := by
      have exact := mul_neg_of_neg_of_pos below factor.value_pos
      rw [Single.value, rounds.value_eq]
      exact Rounding.rounded_nonpos (Rounding.rounded_nonpos exact.le)
    have nonzero := abs_scaled_pos factor finite below.ne
    rw [abs_of_nonpos nonpos] at nonzero
    exact (Single.lt_iff_value_lt rounds.isNumber rfl).2 (neg_pos.1 nonzero)
  · rw [scaled_of_isInf factor infinite]
    exact negative

/-! ## The cap -/

theorem capped_of_lt (h : x < 1.0) : capped x = x := if_pos h

theorem capped_of_not_lt (h : ¬ x < 1.0) : capped x = 1.0 := if_neg h

theorem capped_le_one (x : Float32) : capped x ≤ 1.0 := by
  by_cases below : x < 1.0
  · rw [capped_of_lt below]
    exact Single.le_of_lt below
  · rw [capped_of_not_lt below]
    decide

/-! ## Steps -/

namespace Params

/-- What a step, or any number of them, keeps of a field. -/
structure Kept (field : Field) (x y : Float32) : Prop where
  /-- Either zero stays the zero it is. -/
  zero : x == 0.0 → y = x
  pos : 0.0 < x → 0.0 < y
  neg : x < 0.0 → y < 0.0
  infinite : x.isInf = true → field ≠ .stMix → y = x
  /-- The cap on the blend share takes only the upper infinity away. -/
  negInfinite : x.isInf = true → x < 0.0 → y = x

variable {field : Field} {y z : Float32}

theorem Kept.trans (h : Kept field x y) (k : Kept field y z) : Kept field x z where
  zero := fun zero => by
    have same := h.zero zero
    rw [same] at k
    exact k.zero zero
  pos := fun positive => k.pos (h.pos positive)
  neg := fun negative => k.neg (h.neg negative)
  infinite := fun infinite other => by
    have same := h.infinite infinite other
    rw [same] at k
    exact k.infinite infinite other
  negInfinite := fun infinite negative => by
    have same := h.negInfinite infinite negative
    rw [same] at k
    exact k.negInfinite infinite negative

theorem kept_scaled (field : Field) (factor : IsFactor f) (x : Float32) :
    Kept field x (scaled x f) where
  zero := scaled_of_zero factor
  pos := scaled_pos factor
  neg := scaled_neg factor
  infinite := fun infinite _ => scaled_of_isInf factor infinite
  negInfinite := fun infinite _ => scaled_of_isInf factor infinite

/-- The cap is above zero, and only takes something away from what is above one. -/
theorem kept_capped (x : Float32) : Kept .stMix x (capped x) where
  zero := fun zero => by
    rcases Single.eq_zero_of_beq zero with rfl | rfl
    · exact capped_of_lt (by decide)
    · exact capped_of_lt (by decide)
  pos := fun positive => by
    rw [capped]
    split
    · exact positive
    · decide
  neg := fun negative => by
    rw [capped_of_lt (Single.lt_of_lt_of_le negative (by decide))]
    exact negative
  infinite := fun _ other => absurd rfl other
  negInfinite := fun _ negative => capped_of_lt (Single.lt_of_lt_of_le negative (by decide))

theorem get_scale (params : Params) (factor : Field → Float) (field : Field) :
    (params.scale factor).get field =
      if field = .stMix then capped (scaled (params.get field) (factor field))
      else scaled (params.get field) (factor field) := by
  cases field <;> rfl

theorem kept_scale (params : Params) {factor : Field → Float} {field : Field}
    (h : IsFactor (factor field)) :
    Kept field (params.get field) ((params.scale factor).get field) := by
  have kept := kept_scaled field h (params.get field)
  rw [get_scale]
  split
  next blend =>
    subst blend
    exact kept.trans (kept_capped _)
  next => exact kept

theorem perturb_fst (params : Params) (g : Generator) :
    (params.perturb g).1 = params.scale fun field => g.factor (wordsPerFactor * field.rank) := rfl

theorem kept_perturb (params : Params) (g : Generator) (field : Field) :
    Kept field (params.get field) ((params.perturb g).1.get field) := by
  rw [perturb_fst]
  exact kept_scale params (isFactor_factor g _)

theorem kept_walk {params p : Params} {g : Generator} {steps : ℕ} (mem : p ∈ params.walk g steps)
    (field : Field) : Kept field (params.get field) (p.get field) := by
  induction steps generalizing params g with
  | zero => cases mem
  | succ steps ih =>
      have step := kept_perturb params g field
      rcases List.mem_cons.1 mem with rfl | later
      · exact step
      · exact step.trans (ih later)

/-- No number of steps loses a sign or a zero, and a step at most halves or doubles a number.
After that the blend share is capped: at one if it is not below one. -/
theorem signs_kept (params : Params) (g : Generator) (steps : ℕ) (field : Field) :
    (∀ p ∈ params.walk g steps, Kept field (params.get field) (p.get field)) ∧
    let x := params.get field
    let y := scaled x (g.factor (wordsPerFactor * field.rank))
    let z := (params.perturb g).1.get field
    (field ≠ .stMix → z = y) ∧
    (field = .stMix → z ≤ 1.0 ∧ (y < 1.0 → z = y) ∧ (¬ y < 1.0 → z = 1.0)) ∧
    (x.isFinite = true → 0.5 * x.abs ≤ y.abs ∧ y.abs ≤ 2.0 * x.abs) := by
  have scaled_or_capped := get_scale params (fun field => g.factor (wordsPerFactor * field.rank)) field
  rw [← perturb_fst] at scaled_or_capped
  refine ⟨fun _ mem => kept_walk mem field, fun other => ?_, fun blend => ?_,
    abs_scaled_between (isFactor_factor g _)⟩
  · rwa [if_neg other] at scaled_or_capped
  · rw [if_pos blend] at scaled_or_capped
    simp only [scaled_or_capped]
    exact ⟨capped_le_one _, capped_of_lt, capped_of_not_lt⟩

end Params

end WaveBus
