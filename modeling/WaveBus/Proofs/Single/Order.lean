/-! # The order of singles

Comparison looks at the unpacked values. A NaN compares with nothing, so whatever
is known to be below or above something is a number.
-/

namespace WaveBus.Single

open Float.Model (UnpackedFloat)

theorem le_iff {x y : Float32} : x ≤ y ↔ x.toModel.unpack.le y.toModel.unpack = true := by
  show decide _ = true ↔ _
  rw [decide_eq_true_iff]
  exact Iff.rfl

theorem lt_iff {x y : Float32} : x < y ↔ x.toModel.unpack.lt y.toModel.unpack = true := by
  show decide _ = true ↔ _
  rw [decide_eq_true_iff]
  exact Iff.rfl

theorem le_of_lt {x y : Float32} (h : x < y) : x ≤ y := by
  rw [lt_iff, UnpackedFloat.lt, beq_iff_eq] at h
  rw [le_iff, UnpackedFloat.le, h]
  rfl

theorem isNaN_eq_false_of_le {x y : Float32} (h : x ≤ y) : x.isNaN = false := by
  rw [le_iff, UnpackedFloat.le] at h
  show x.toModel.unpack.isNaN = false
  cases hx : x.toModel.unpack with
  | notANumber =>
      rw [hx] at h
      cases h
  | infinity | zero | finite => rfl

end WaveBus.Single
