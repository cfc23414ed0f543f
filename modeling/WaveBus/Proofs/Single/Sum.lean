import WaveBus.Proofs.Single.Unit

/-! # Running sums

Levels from zero to one are added up one after the other, each sum rounded. As long as there
are not too many of them, the sum of `k` is a finite number from zero to `k`. Sums grow with
every term, and larger terms have a larger sum.
-/

namespace WaveBus.Single

open Float.Model (Format)

variable {x x' y y' s s' : Float32} {k : ℕ} {terms terms' : List Float32}

/-- How many levels can be added up: whole numbers below are singles. -/
def manyTerms : ℕ := 2 ^ 24

/-- A number from zero to `k`, as the sum of `k` levels is. -/
structure UpTo (k : ℕ) (x : Float32) : Prop where
  nonneg : 0.0 ≤ x
  value_le : value x ≤ k

theorem natCast_lt_bound (few : k < manyTerms) : (k : ℚ) < Rounding.bound Format.binary32 := by
  have room : k < 2 ^ 128 := few.trans (by decide)
  show (k : ℚ) < 2 ^ 128
  exact_mod_cast room

theorem rounded_natCast (few : k < manyTerms) : Rounding.rounded Format.binary32 k = k := by
  have inside : (k : ℚ) * 2 ^ (0 : ℤ) ≤ Rounding.bound Format.binary32 := by
    rw [zpow_zero, mul_one]
    exact (natCast_lt_bound few).le
  have exact := Rounding.rounded_digits .positive few (by decide) inside
  rwa [Rounding.signed, zpow_zero, mul_one] at exact

theorem rounds_ofInt (n : ℤ) : Rounds (.ofModel (.ofInt n)) n := by
  have exact : Rounds (.ofModel (.ofInt n)) (n * 2 ^ (0 : ℤ)) :=
    Rounding.rounds_normalize (by decide) n 0 .positive
  rwa [zpow_zero, mul_one] at exact

/-- Few enough terms can be counted exactly. -/
theorem exact_ofInt (few : k < manyTerms) :
    (Float32.ofModel (.ofInt k)).isFinite = true ∧ value (.ofModel (.ofInt k)) = k := by
  have whole : Rounds (.ofModel (.ofInt k)) (k * 2 ^ (0 : ℤ)) := by
    rw [zpow_zero, mul_one]
    exact rounds_ofInt k
  have inside : (k : ℚ) * 2 ^ (0 : ℤ) < Rounding.bound Format.binary32 := by
    rw [zpow_zero, mul_one]
    exact natCast_lt_bound few
  have exact := exact_of_rounds whole few (by decide) inside
  rwa [zpow_zero, mul_one] at exact

namespace UpTo

theorem isFinite (h : UpTo k x) (few : k < manyTerms) : x.isFinite = true := by
  have number := isNaN_right_of_le h.nonneg
  rw [isFinite_iff_value number, abs_of_nonneg (value_nonneg h.nonneg)]
  exact h.value_le.trans_lt (natCast_lt_bound few)

/-- A few levels do not make a finite number overflow. -/
theorem isFinite_add (h : UpTo k x) (few : k ≤ 16) (finite : y.isFinite = true) :
    (x + y).isFinite = true := by
  have sixteen : value 16.0 = 16 := by
    show ((8388608 : ℕ) : ℚ) * 2 ^ (-19 : ℤ) = 16
    norm_num
  have upper : x ≤ 16.0 := by
    rw [le_iff_value_le (isNaN_right_of_le h.nonneg) rfl, sixteen]
    exact h.value_le.trans (by exact_mod_cast few)
  exact isFinite_add_small h.nonneg upper finite

theorem zero : UpTo 0 0.0 := ⟨by decide, by rw [value_zero, Nat.cast_zero]⟩

/-- One level more makes the sum larger, by one at most. -/
theorem add (h : UpTo k x) (hy : InUnit y) (few : k + 1 < manyTerms) :
    UpTo (k + 1) (x + y) ∧ x ≤ x + y ∧ y ≤ x + y := by
  have lower := value_nonneg h.nonneg
  have sum := rounds_add (h.isFinite (by omega)) hy.isFinite
  have exact : value x + value y ≤ (k + 1 : ℕ) := by
    push_cast
    linarith [h.value_le, hy.value_le_one]
  have number := isNaN_right_of_le h.nonneg
  refine ⟨⟨le_of_rounds rounds_zero sum (by linarith [hy.value_nonneg]), ?_⟩, ?_, ?_⟩
  · rw [← rounded_natCast few]
    exact sum.value_eq.trans_le (Rounding.rounded_mono exact)
  · exact le_of_rounds (rounds_self number) sum (by linarith [hy.value_nonneg])
  · exact le_of_rounds (rounds_self hy.isNaN) sum (by linarith)

/-- The running sum after any number of levels. -/
theorem sum (h : UpTo k s) (levels : ∀ t ∈ terms, InUnit t) (few : k + terms.length < manyTerms) :
    UpTo (k + terms.length) (terms.foldl (· + ·) s) ∧ s ≤ terms.foldl (· + ·) s := by
  induction terms generalizing k s with
  | nil => exact ⟨h, Single.le_refl (isNaN_right_of_le h.nonneg)⟩
  | cons t terms ih =>
      rw [List.length_cons] at few
      obtain ⟨next, grown, -⟩ := h.add (levels t List.mem_cons_self) (by omega)
      obtain ⟨last, further⟩ := ih next (fun t ht => levels t (List.mem_cons_of_mem _ ht)) (by omega)
      rw [List.length_cons, Nat.add_comm terms.length, ← Nat.add_assoc]
      exact ⟨last, Single.le_trans grown further⟩

/-- No term exceeds the sum. -/
theorem mem_le_sum (h : UpTo k s) (levels : ∀ t ∈ terms, InUnit t)
    (few : k + terms.length < manyTerms) (mem : x ∈ terms) : x ≤ terms.foldl (· + ·) s := by
  induction terms generalizing k s with
  | nil => cases mem
  | cons t terms ih =>
      rw [List.length_cons] at few
      have rest : ∀ t ∈ terms, InUnit t := fun t ht => levels t (List.mem_cons_of_mem _ ht)
      obtain ⟨next, -, grown⟩ := h.add (levels t List.mem_cons_self) (by omega)
      rcases List.mem_cons.1 mem with rfl | later
      · exact Single.le_trans grown (next.sum rest (by omega)).2
      · exact ih next rest (by omega) later

/-- Larger terms have a larger sum. -/
theorem sum_le_sum (h : UpTo k s) (h' : UpTo k s') (start : s ≤ s')
    (larger : List.Forall₂ (· ≤ ·) terms terms') (levels : ∀ t ∈ terms, InUnit t)
    (levels' : ∀ t ∈ terms', InUnit t) (few : k + terms.length < manyTerms) :
    terms.foldl (· + ·) s ≤ terms'.foldl (· + ·) s' := by
  induction larger generalizing k s s' with
  | nil => exact start
  | @cons t t' terms terms' le larger ih =>
      rw [List.length_cons] at few
      obtain ⟨next, -, -⟩ := h.add (levels t List.mem_cons_self) (by omega)
      obtain ⟨next', -, -⟩ := h'.add (levels' t' List.mem_cons_self) (by omega)
      have step := Single.add_le_add (h.isFinite (by omega)) (h'.isFinite (by omega)) start le
      exact ih next next' step (fun t ht => levels t (List.mem_cons_of_mem _ ht))
        (fun t ht => levels' t (List.mem_cons_of_mem _ ht)) (by omega)

end UpTo

@[simp] theorem value_half : value 0.5 = 1 / 2 := by
  show ((8388608 : ℕ) : ℚ) * 2 ^ (-24 : ℤ) = 1 / 2
  norm_num

@[simp] theorem value_two : value 2.0 = 2 := by
  show ((8388608 : ℕ) : ℚ) * 2 ^ (-22 : ℤ) = 2
  norm_num

theorem isFinite_half : (0.5 : Float32).isFinite = true := rfl

theorem mean_le_mean (finite_x : x.isFinite = true) (finite_x' : x'.isFinite = true) (h : x ≤ x')
    (k : y ≤ y') : (x + y) * 0.5 ≤ (x' + y') * 0.5 :=
  Single.mul_le_mul_right isFinite_half (by decide) (Single.add_le_add finite_x finite_x' h k)

theorem InUnit.upTo_one (h : InUnit x) : UpTo 1 x := ⟨h.nonneg, by exact_mod_cast h.value_le_one⟩

theorem InUnit.mean (hx : InUnit x) (hy : InUnit y) : InUnit ((x + y) * 0.5) := by
  obtain ⟨sum, -, -⟩ := hx.upTo_one.add hy (by decide)
  have half := rounds_mul (sum.isFinite (by decide)) isFinite_half
  rw [value_half] at half
  have upper : value (x + y) ≤ 2 := by exact_mod_cast sum.value_le
  exact inUnit_of_rounds half (by linarith [Single.value_nonneg sum.nonneg]) (by linarith)

end WaveBus.Single
