import WaveBus.Proofs.Rounding.Grid

/-! # Packing and unpacking

A finite number whose significand and exponent are as the format keeps them, and whose
exponent has a code, unpacks to what was packed. One whose exponent is too large is packed
as infinity.
-/

namespace WaveBus.Rounding

open Float.Model (Format UnpackedFloat)
open Float.Model.UnpackedFloat

variable {spec : Format}

/-- Significand and exponent of a number that a format stores. -/
structure Stored (spec : Format) (significand : ℕ) (exponent : ℤ) : Prop where
  canonical : Canonical spec significand exponent
  coded : exponent + spec.exponentBias + spec.mantissaBitsWithoutImplicit + 1 <
    2 ^ spec.exponentBits

/-- The number of exponent codes is twice what the bias was made from. -/
theorem exponentCodes (spec : Format) :
    (2 : ℤ) ^ spec.exponentBits = 2 * (spec.exponentBias + 1) := by
  have bias : spec.exponentBias + 1 = 2 ^ (spec.exponentBits - 1) :=
    Nat.sub_add_cancel Nat.one_le_two_pow
  have double : 2 ^ spec.exponentBits = 2 * 2 ^ (spec.exponentBits - 1) := by
    rw [← pow_succ', Nat.sub_add_cancel spec.he]
  rw [← bias] at double
  exact_mod_cast double

theorem minExponent_eq (spec : Format) :
    spec.minExponent = 1 - spec.exponentBias - spec.mantissaBitsWithoutImplicit := by
  have bias : spec.exponentBias + 1 = 2 ^ (spec.exponentBits - 1) :=
    Nat.sub_add_cancel Nat.one_le_two_pow
  have power : (2 : ℤ) ^ (spec.exponentBits - 1) = spec.exponentBias + 1 := by
    exact_mod_cast bias.symm
  rw [Format.minExponent, power, Format.mantissaBits]
  omega

theorem one_le_exponentBias (wide : 2 ≤ spec.exponentBits) : 1 ≤ spec.exponentBias := by
  have power : 2 ^ 1 ≤ 2 ^ (spec.exponentBits - 1) := Nat.pow_le_pow_right two_pos (by omega)
  rw [Format.exponentBias]
  omega

/-- What is canonical has all its digits, or as few as it likes at the lowest exponent. -/
theorem canonical_iff {m : ℕ} {e : ℤ} :
    Canonical spec m e ↔ m.log2 ≤ spec.mantissaBitsWithoutImplicit ∧ spec.minExponent ≤ e ∧
      (m.log2 = spec.mantissaBitsWithoutImplicit ∨ e = spec.minExponent) := by
  simp only [Canonical, Format.targetExponent, Float.Model.totalExponent, Format.mantissaBits]
  omega

theorem toNat_one_append {n : ℕ} (fraction : BitVec n) :
    (1#1 ++ fraction).toNat = 2 ^ n + fraction.toNat := by
  have disjoint := Nat.two_pow_add_eq_or_of_lt fraction.isLt 1
  rw [mul_one] at disjoint
  rw [BitVec.toNat_append, disjoint, BitVec.toNat_ofNat, Nat.shiftLeft_eq, Nat.one_mod, one_mul]

/-- What a word unpacks to is stored. -/
theorem stored_of_unpack (wide : 2 ≤ spec.exponentBits) {word : BitVec spec.numBits} {sign : Sign}
    {m : ℕ} {e : ℤ} {positive : 0 < m} (h : unpack spec word = .finite sign m e positive) :
    Stored spec m e := by
  have codes := exponentCodes spec
  have least := minExponent_eq spec
  have bias := one_le_exponentBias wide
  have fraction_lt := (unpackMantissa word).isLt
  have code_lt := (unpackExponent word).isLt
  rw [unpack] at h
  split at h
  · split at h <;> cases h
  next inside =>
    split at h
    next bottom =>
      split at h
      · cases h
      · cases h
        have log := (Nat.log2_lt positive.ne').2 fraction_lt
        have code : (unpackExponent word).toNat = 0 := by rw [bottom, BitVec.toNat_zero]
        refine ⟨canonical_iff.2 ?_, ?_⟩ <;> omega
    next normal =>
      cases h
      have full := toNat_one_append (unpackMantissa word)
      have log : (1#1 ++ unpackMantissa word).toNat.log2 = spec.mantissaBitsWithoutImplicit := by
        rw [Nat.log2_eq_iff positive.ne', pow_succ]
        omega
      have above := BitVec.toNat_pos_of_ne_zero normal
      have below : (unpackExponent word).toNat ≠ 2 ^ spec.exponentBits - 1 := by
        intro top
        apply inside
        rw [BitVec.neg_one_eq_allOnes]
        exact BitVec.eq_of_toNat_eq (by rw [top, BitVec.toNat_allOnes])
      have code : ((unpackExponent word).toNat : ℤ) + 1 < 2 ^ spec.exponentBits := by
        have room : (unpackExponent word).toNat + 1 < 2 ^ spec.exponentBits := by omega
        exact_mod_cast room
      refine ⟨canonical_iff.2 ?_, ?_⟩ <;> omega

theorem zero_ne_ones (spec : Format) : 0#(spec.exponentBits) ≠ -1#_ := by
  intro ones
  have zero := congrArg BitVec.toNat ones
  have codes := Nat.two_pow_pos (spec.exponentBits - 1)
  have double : 2 ^ spec.exponentBits = 2 * 2 ^ (spec.exponentBits - 1) := by
    rw [← pow_succ', Nat.sub_add_cancel spec.he]
  rw [BitVec.neg_one_eq_allOnes, BitVec.toNat_allOnes, double,
    BitVec.toNat_zero] at zero
  omega

theorem unpack_normal (sign : Sign) {code : BitVec spec.exponentBits}
    (fraction : BitVec spec.mantissaBitsWithoutImplicit) (above : 0 < code.toNat)
    (below : code.toNat + 1 < 2 ^ spec.exponentBits) :
    unpack spec (packComponents spec sign code fraction) =
      .finite sign (2 ^ spec.mantissaBitsWithoutImplicit + fraction.toNat)
        (code.toNat - (spec.exponentBias + spec.mantissaBitsWithoutImplicit))
        (Nat.add_pos_left (Nat.two_pow_pos _) _) := by
  have notOnes : code ≠ -1#_ := by
    rintro rfl
    rw [BitVec.neg_one_eq_allOnes, BitVec.toNat_allOnes] at below
    omega
  have notZero : code ≠ 0#_ := by
    rintro rfl
    rw [BitVec.toNat_zero] at above
    omega
  rw [unpack]
  simp only [unpackMantissa_packComponents, unpackExponent_packComponents,
    unpackSign_packComponents, Sign.ofBitVec_toBitVec]
  rw [if_neg notOnes, if_neg notZero]
  congr 1
  exact toNat_one_append fraction

theorem unpack_subnormal (sign : Sign) {fraction : BitVec spec.mantissaBitsWithoutImplicit}
    (positive : 0 < fraction.toNat) :
    unpack spec (packComponents spec sign 0#_ fraction) =
      .finite sign fraction.toNat spec.minExponent positive := by
  have notZero : fraction ≠ 0#_ := by
    rintro rfl
    rw [BitVec.toNat_zero] at positive
    omega
  rw [unpack]
  simp only [unpackMantissa_packComponents, unpackExponent_packComponents,
    unpackSign_packComponents, Sign.ofBitVec_toBitVec]
  rw [if_neg (zero_ne_ones spec), if_pos trivial, dif_neg notZero]
  congr 1
  rw [BitVec.toNat_zero, minExponent_eq]
  omega

/-- What is packed as a stored number unpacks again. -/
theorem unpack_pack_stored {sign : Sign} {m : ℕ} {e : ℤ} (positive : 0 < m)
    (stored : Stored spec m e) :
    unpack spec (pack spec (.finite sign m e positive)) = .finite sign m e positive := by
  obtain ⟨short, lower, full⟩ := canonical_iff.1 stored.canonical
  have least := minExponent_eq spec
  obtain ⟨code, biased⟩ : ∃ code : ℕ,
      e + spec.exponentBias + spec.mantissaBitsWithoutImplicit = code :=
    ⟨_, (Int.toNat_of_nonneg (by omega)).symm⟩
  have room : code + 1 < 2 ^ spec.exponentBits := by
    have coded := stored.coded
    rw [biased] at coded
    exact_mod_cast coded
  rw [pack]
  simp only [biased, Int.toNat_natCast]
  rw [if_neg (by omega)]
  by_cases normal : m.log2 = spec.mantissaBitsWithoutImplicit
  · have size := (Nat.log2_eq_iff positive.ne').1 normal
    rw [pow_succ] at size
    have stands : (BitVec.ofNat spec.exponentBits code).toNat = code := by
      rw [BitVec.toNat_ofNat, Nat.mod_eq_of_lt (by omega)]
    have fraction : (BitVec.ofNat spec.mantissaBitsWithoutImplicit m).toNat =
        m - 2 ^ spec.mantissaBitsWithoutImplicit := by
      rw [BitVec.toNat_ofNat, Nat.mod_eq_sub_mod size.1, Nat.mod_eq_of_lt (by omega)]
    rw [if_pos (show m.log2 + 1 = spec.mantissaBits by rw [Format.mantissaBits]; omega),
      unpack_normal sign _ (by omega) (by omega)]
    congr 1
    · omega
    · rw [stands]
      omega
  · have size : m < 2 ^ spec.mantissaBitsWithoutImplicit := by
      rw [← Nat.log2_lt positive.ne']
      omega
    have fraction : (BitVec.ofNat spec.mantissaBitsWithoutImplicit m).toNat = m := by
      rw [BitVec.toNat_ofNat, Nat.mod_eq_of_lt size]
    rw [if_neg (show ¬ m.log2 + 1 = spec.mantissaBits by rw [Format.mantissaBits]; omega)]
    refine (unpack_subnormal sign (by rw [fraction]; exact positive)).trans ?_
    congr 1
    exact (full.resolve_left normal).symm

theorem unpack_packedInfinity (spec : Format) (sign : Sign) :
    unpack spec (packedInfinity spec sign) = .infinity sign := by
  rw [unpack, packedInfinity]
  simp only [unpackMantissa_packComponents, unpackExponent_packComponents,
    unpackSign_packComponents, Sign.ofBitVec_toBitVec]
  exact (if_pos trivial).trans (if_pos rfl)

/-- A number whose exponent has no code becomes infinity. -/
theorem unpack_pack_large {sign : Sign} {m : ℕ} {e : ℤ} (positive : 0 < m)
    (large : 2 ^ spec.exponentBits ≤
      e + spec.exponentBias + spec.mantissaBitsWithoutImplicit + 1) :
    unpack spec (pack spec (.finite sign m e positive)) = .infinity sign := by
  have beyond : 2 ^ spec.exponentBits ≤
      (e + spec.exponentBias + spec.mantissaBitsWithoutImplicit).toNat + 1 := by
    zify
    omega
  rw [← unpack_packedInfinity spec sign]
  exact congrArg (unpack spec) (if_pos beyond)

end WaveBus.Rounding
