import WaveBus.Proofs.Single.Monotone
import WaveBus.Proofs.Single.NaN

/-! # Zeros of either sign

The two zeros compare equal but are not the same single, and the sign of a product with a zero
depends on its factors. A sum, or a product or quotient by one and the same number, turns
operands that differ in the sign of a zero into results that differ in no more than that. So two
calculations that differ in such signs meet the same infinities and NaNs on the way and end with
the same comparisons.
-/

namespace WaveBus.Single

open Float.Model (Format UnpackedFloat)

variable {x x' y y' z : Float32} {u v : UnpackedFloat} {terms terms' : List Float32}

/-- The same single, or two zeros of whatever sign. -/
inductive Alike : Float32 → Float32 → Prop where
  | refl (x : Float32) : Alike x x
  | zeros {x y : Float32} (hx : x == 0.0) (hy : y == 0.0) : Alike x y

theorem unpack_of_zero (zero : z == 0.0) : ∃ sign, z.toModel.unpack = .zero sign := by
  rcases eq_zero_of_beq zero with rfl | rfl <;> exact ⟨_, rfl⟩

theorem value_of_zero (zero : z == 0.0) : value z = 0 := by
  rcases eq_zero_of_beq zero with rfl | rfl <;> rfl

theorem isFinite_of_zero (zero : z == 0.0) : z.isFinite = true := by
  rcases eq_zero_of_beq zero with rfl | rfl <;> decide

theorem zero_of_value_eq (number : z.isNaN = false) (h : value z = 0) : z == 0.0 := by
  show z.toModel.unpack.beq (0.0 : Float32).toModel.unpack = true
  rw [UnpackedFloat.beq, compare_unpack number rfl, value_zero, h]
  rfl

namespace Alike

theorem of_eq (h : x = y) : Alike x y := h ▸ refl x

theorem symm (h : Alike x y) : Alike y x := by
  cases h with
  | refl => exact refl x
  | zeros hx hy => exact zeros hy hx

theorem trans (h : Alike x y) (k : Alike y z) : Alike x z := by
  cases h with
  | refl => exact k
  | zeros hx hy =>
      cases k with
      | refl => exact zeros hx hy
      | zeros _ hz => exact zeros hx hz

theorem of_value_eq (number_x : x.isNaN = false) (number_y : y.isNaN = false)
    (same : value x = value y) : Alike x y := by
  by_cases nothing : value x = 0
  · exact zeros (zero_of_value_eq number_x nothing)
      (zero_of_value_eq number_y (same.symm.trans nothing))
  · exact of_eq (eq_of_value_eq number_x number_y same nothing)

/-- Results are packed alike if they are the same, or zeros. -/
theorem pack (h : u = v ∨ ∃ s t, u = .zero s ∧ v = .zero t) :
    Alike (.ofModel (.pack u)) (.ofModel (.pack v)) := by
  rcases h with rfl | ⟨s, t, rfl, rfl⟩
  · exact refl _
  · have zero : ∀ s, Float32.ofModel (.pack (.zero s)) == 0.0 := by
      rintro (_ | _) <;> decide
    exact zeros (zero s) (zero t)

end Alike

/-! ## Zeros and ones that have no effect -/

protected theorem add_comm (x y : Float32) : x + y = y + x := by
  have sums : ∀ u v, UnpackedFloat.add Format.binary32 u v = .add Format.binary32 v u := by
    intro u v
    cases u with
    | notANumber => cases v <;> rfl
    | infinity s =>
        cases v with
        | infinity t => cases s <;> cases t <;> rfl
        | notANumber | zero | finite => rfl
    | zero s =>
        cases v with
        | zero t => cases s <;> cases t <;> rfl
        | notANumber | infinity | finite => rfl
    | finite s m e =>
        cases v with
        | finite t n f => simp only [UnpackedFloat.add, Int.min_comm, Int.add_comm]
        | notANumber | infinity | zero => rfl
  exact congrArg (fun u => Float32.ofModel (.pack u)) (sums x.toModel.unpack y.toModel.unpack)

theorem zero_add_alike (zero : z == 0.0) (x : Float32) : Alike (z + x) x := by
  obtain ⟨sign, hz⟩ := unpack_of_zero zero
  have sum : Alike (.ofModel (.pack (.add Format.binary32 z.toModel.unpack x.toModel.unpack)))
      (.ofModel (.pack x.toModel.unpack)) := by
    apply Alike.pack
    rw [hz]
    cases x.toModel.unpack with
    | zero t =>
        right
        cases sign <;> cases t <;> exact ⟨_, _, rfl, rfl⟩
    | notANumber | infinity | finite => exact .inl rfl
  rwa [pack_unpack] at sum

theorem add_zero_alike (zero : z == 0.0) (x : Float32) : Alike (x + z) x := by
  rw [Single.add_comm]
  exact zero_add_alike zero x

theorem mul_zero_of_isFinite (finite_x : x.isFinite = true) (finite_y : y.isFinite = true)
    (zero : x == 0.0 ∨ y == 0.0) : x * y == 0.0 := by
  have product := rounds_mul finite_x finite_y
  have nothing : value x * value y = 0 := by
    rcases zero with zero | zero
    · rw [value_of_zero zero, zero_mul]
    · rw [value_of_zero zero, mul_zero]
  rw [nothing] at product
  exact zero_of_value_eq product.isNumber (product.value_eq.trans Rounding.rounded_zero)

/-- A zero times an infinity is no number. -/
theorem isNaN_zero_mul (zero : z == 0.0) (infinite : x.isInf = true) : (z * x).isNaN = true := by
  obtain ⟨sign, hz⟩ := unpack_of_zero zero
  obtain ⟨sign', hx⟩ := unpack_of_isInf infinite
  refine isNaN_pack (u := .mul Format.binary32 z.toModel.unpack x.toModel.unpack) ?_
  rw [hz, hx]
  rfl

theorem mul_one_alike (x : Float32) : Alike (x * 1.0) x := by
  cases number : x.isNaN with
  | true => exact .of_eq (eq_of_isNaN (isNaN_mul_left number) number)
  | false =>
      rcases isFinite_or_isInf number with finite | infinite
      · have product := rounds_mul finite isFinite_one
        rw [value_one, mul_one] at product
        exact .of_value_eq product.isNumber number
          (product.value_eq.trans (rounds_self number).value_eq.symm)
      · exact .of_eq (mul_of_isInf infinite isFinite_one (by decide))

/-! ## Operations -/

namespace Alike

/-- An operation that makes the same of both zeros, or zeros, makes the like of what is alike. -/
theorem map (op : UnpackedFloat → UnpackedFloat)
    (zero : ∀ s t, op (.zero s) = op (.zero t) ∨
      ∃ s' t', op (.zero s) = .zero s' ∧ op (.zero t) = .zero t') (h : Alike x x') :
    Alike (.ofModel (.pack (op x.toModel.unpack))) (.ofModel (.pack (op x'.toModel.unpack))) := by
  cases h with
  | refl => exact refl _
  | zeros hx hx' =>
      obtain ⟨s, hs⟩ := unpack_of_zero hx
      obtain ⟨t, ht⟩ := unpack_of_zero hx'
      rw [hs, ht]
      exact pack (zero s t)

theorem add (h : Alike x x') (k : Alike y y') : Alike (x + y) (x' + y') := by
  cases h with
  | refl =>
      cases k with
      | refl => exact refl _
      | zeros hy hy' => exact (add_zero_alike hy x).trans (add_zero_alike hy' x).symm
  | zeros hx hx' => exact ((zero_add_alike hx y).trans k).trans (zero_add_alike hx' y').symm

/-- A zero times an infinity is a NaN, whatever the sign of the zero. -/
theorem mul_right (h : Alike x x') (y : Float32) : Alike (x * y) (x' * y) := by
  refine map (.mul Format.binary32 · y.toModel.unpack) (fun s t => ?_) h
  cases y.toModel.unpack with
  | notANumber | infinity => exact .inl rfl
  | zero | finite => exact .inr ⟨_, _, rfl, rfl⟩

/-- A zero divided by a zero is a NaN, whatever their signs. -/
theorem div_right (h : Alike x x') (y : Float32) : Alike (x / y) (x' / y) := by
  refine map (.div Format.binary32 · y.toModel.unpack) (fun s t => ?_) h
  cases y.toModel.unpack with
  | notANumber | zero => exact .inl rfl
  | infinity | finite => exact .inr ⟨_, _, rfl, rfl⟩

theorem foldl_add (h : List.Forall₂ Alike terms terms') (start : Alike x x') :
    Alike (terms.foldl (· + ·) x) (terms'.foldl (· + ·) x') := by
  induction h generalizing x x' with
  | nil => exact start
  | cons first _ ih =>
      rw [List.foldl_cons, List.foldl_cons]
      exact ih (start.add first)

theorem lt_iff (h : Alike y y') : x < y ↔ x < y' := by
  cases h with
  | refl => exact Iff.rfl
  | zeros hy hy' =>
      obtain ⟨s, hs⟩ := unpack_of_zero hy
      obtain ⟨t, ht⟩ := unpack_of_zero hy'
      rw [Single.lt_iff, Single.lt_iff, hs, ht]
      cases x.toModel.unpack with
      | notANumber | zero => exact Iff.rfl
      | infinity sign | finite sign => cases sign <;> exact Iff.rfl

end Alike

end WaveBus.Single
