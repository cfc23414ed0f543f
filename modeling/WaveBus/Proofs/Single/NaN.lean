import WaveBus.Proofs.Single.Packing
import WaveBus.Proofs.Single.Value

/-! # What a NaN spoils

A NaN goes through every operation, from either side, so one of them among the terms of a sum
makes the sum a NaN. It is neither below nor above anything.
-/

namespace WaveBus.Single

open Float.Model (Format UnpackedFloat)

variable {x y : Float32} {u : UnpackedFloat} {terms : List Float32}

theorem unpack_of_isNaN (h : x.isNaN = true) : x.toModel.unpack = .notANumber := by
  change x.toModel.unpack.isNaN = true at h
  cases hx : x.toModel.unpack with
  | notANumber => rfl
  | infinity | zero | finite =>
      rw [hx] at h
      cases h

theorem isNaN_pack (h : u = .notANumber) : (Float32.ofModel (.pack u)).isNaN = true := by
  rw [h]
  rfl

/-- There is only one NaN. -/
theorem eq_of_isNaN (hx : x.isNaN = true) (hy : y.isNaN = true) : x = y := by
  rw [← pack_unpack x, ← pack_unpack y, unpack_of_isNaN hx, unpack_of_isNaN hy]

/-! ## Operations -/

theorem isNaN_add_left (h : x.isNaN = true) : (x + y).isNaN = true := by
  refine isNaN_pack (u := .add Format.binary32 x.toModel.unpack y.toModel.unpack) ?_
  rw [unpack_of_isNaN h]
  rfl

theorem isNaN_add_right (h : y.isNaN = true) : (x + y).isNaN = true := by
  refine isNaN_pack (u := .add Format.binary32 x.toModel.unpack y.toModel.unpack) ?_
  rw [unpack_of_isNaN h]
  cases x.toModel.unpack <;> rfl

theorem isNaN_mul_left (h : x.isNaN = true) : (x * y).isNaN = true := by
  refine isNaN_pack (u := .mul Format.binary32 x.toModel.unpack y.toModel.unpack) ?_
  rw [unpack_of_isNaN h]
  rfl

theorem isNaN_mul_right (h : y.isNaN = true) : (x * y).isNaN = true := by
  refine isNaN_pack (u := .mul Format.binary32 x.toModel.unpack y.toModel.unpack) ?_
  rw [unpack_of_isNaN h]
  cases x.toModel.unpack <;> rfl

theorem isNaN_div_left (h : x.isNaN = true) : (x / y).isNaN = true := by
  refine isNaN_pack (u := .div Format.binary32 x.toModel.unpack y.toModel.unpack) ?_
  rw [unpack_of_isNaN h]
  rfl

theorem isNaN_div_right (h : y.isNaN = true) : (x / y).isNaN = true := by
  refine isNaN_pack (u := .div Format.binary32 x.toModel.unpack y.toModel.unpack) ?_
  rw [unpack_of_isNaN h]
  cases x.toModel.unpack <;> rfl

/-! ## Sums -/

theorem isNaN_foldl_add (h : x.isNaN = true) : (terms.foldl (· + ·) x).isNaN = true := by
  induction terms generalizing x with
  | nil => exact h
  | cons t terms ih =>
      rw [List.foldl_cons]
      exact ih (isNaN_add_left h)

theorem isNaN_foldl_add_of_mem (mem : y ∈ terms) (h : y.isNaN = true) :
    (terms.foldl (· + ·) x).isNaN = true := by
  induction terms generalizing x with
  | nil => cases mem
  | cons t terms ih =>
      rw [List.foldl_cons]
      rcases List.mem_cons.1 mem with rfl | later
      · exact isNaN_foldl_add (isNaN_add_right h)
      · exact ih later

/-! ## Order -/

theorem not_lt_of_isNaN_left (h : x.isNaN = true) : ¬ x < y := fun less =>
  Bool.noConfusion (h.symm.trans (isNaN_left_of_le (le_of_lt less)))

theorem not_lt_of_isNaN_right (h : y.isNaN = true) : ¬ x < y := fun less =>
  Bool.noConfusion (h.symm.trans (isNaN_right_of_le (le_of_lt less)))

end WaveBus.Single
