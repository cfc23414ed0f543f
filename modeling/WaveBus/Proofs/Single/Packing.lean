import WaveBus.Proofs.Rounding.Packing

/-! # Singles and their unpacked form

There is only one NaN, so a single is determined by what it unpacks to. A finite one
unpacks to a significand and an exponent as the format keeps them.
-/

namespace WaveBus.Single

open Float.Model (Format UnpackedFloat)
open Float.Model.UnpackedFloat
open Rounding (Canonical Stored)

theorem pack_unpack (x : Float32) : Float32.ofModel (.pack x.toModel.unpack) = x := by
  have bits : pack Format.binary32 x.toModel.unpack = x.toModel.toBits.toBitVec :=
    pack_unpack_of_valid x.toModel.valid
  rw [← Float32.toBits_inj]
  exact congrArg UInt32.ofBitVec bits

theorem toBits_beq_iff {x y : Float32} : (x.toBits == y.toBits) = true ↔ x = y := by
  rw [beq_iff_eq, Float32.toBits_inj]

/-- The finite singles. -/
structure Finite (significand : ℕ) (exponent : ℤ) : Prop where
  canonical : Canonical Format.binary32 significand exponent
  significand_lt : significand < 2 ^ 24
  le_exponent : -149 ≤ exponent
  exponent_le : exponent ≤ 104

variable {significand : ℕ} {exponent : ℤ} {sign : Sign}

theorem Finite.stored (finite : Finite significand exponent) :
    Stored Format.binary32 significand exponent := by
  refine ⟨finite.canonical, ?_⟩
  show exponent + 127 + 23 + 1 < 256
  linarith [finite.exponent_le]

theorem finite_of_stored (positive : 0 < significand)
    (stored : Stored Format.binary32 significand exponent) : Finite significand exponent := by
  obtain ⟨short, least, -⟩ := Rounding.canonical_iff.1 stored.canonical
  have coded : exponent + 127 + 23 + 1 < 256 := stored.coded
  exact ⟨stored.canonical, (Nat.log2_lt positive.ne').1 (Nat.lt_succ_of_le short), least, by omega⟩

theorem finite_of_unpack {x : Float32} {positive : 0 < significand}
    (h : x.toModel.unpack = .finite sign significand exponent positive) :
    Finite significand exponent :=
  finite_of_stored positive (Rounding.stored_of_unpack (by decide) h)

/-- What is packed as a finite single unpacks again. -/
theorem unpack_pack (positive : 0 < significand) (finite : Finite significand exponent) :
    (Float32.Model.pack (.finite sign significand exponent positive)).unpack =
      .finite sign significand exponent positive :=
  Rounding.unpack_pack_stored positive finite.stored

theorem neg_pack (positive : 0 < significand) (finite : Finite significand exponent) :
    -Float32.ofModel (.pack (.finite sign significand exponent positive)) =
      .ofModel (.pack (.finite (-sign) significand exponent positive)) := by
  show Float32.ofModel (.pack (Float32.Model.pack (.finite sign _ _ _)).unpack.neg) = _
  rw [unpack_pack positive finite]
  rfl

end WaveBus.Single
