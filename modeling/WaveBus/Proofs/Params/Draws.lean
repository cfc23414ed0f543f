import WaveBus.Proofs.Params.Factor

/-! # Drawn factors

A larger draw gives a smaller factor, or a larger reciprocal, and no draw below one takes them as
far as one half or two. A factor takes three words from the generator, whatever they are, so a
run of draws takes three for each of its factors, and each factor depends on its own three only.
-/

namespace WaveBus

variable {u v : Float32} {f f' : Float} {k m m' n n' : ℕ}

/-! ## Order -/

theorem within_of_value (finite : f.isFinite = true) (exact : Double.value f = k * 2 ^ (-25 : ℤ)) :
    Within k k f :=
  ⟨finite, exact.ge, exact.le⟩

theorem within_half : Within (2 ^ 24) (2 ^ 24) 0.5 := by
  refine within_of_value rfl ?_
  rw [Double.value_half]
  norm_num

theorem within_one : Within (2 ^ 25) (2 ^ 25) 1.0 := by
  refine within_of_value rfl ?_
  rw [Double.value_one]
  norm_num

theorem within_two : Within (2 ^ 26) (2 ^ 26) 2.0 := by
  refine within_of_value rfl ?_
  rw [Double.value_two]
  norm_num

namespace Within

theorem isNumber (h : Within m n f) : f.isNaN = false := Rounding.isNaN_of_isFinite h.finite

theorem le (h : Within m n f) (h' : Within m' n' f') (apart : n ≤ m') : f ≤ f' := by
  have steps : (n : ℚ) * 2 ^ (-25 : ℤ) ≤ m' * 2 ^ (-25 : ℤ) :=
    mul_le_mul_of_nonneg_right (by exact_mod_cast apart) (zpow_pos two_pos _).le
  rw [Double.le_iff_value_le h.isNumber h'.isNumber]
  exact h.upper.trans (steps.trans h'.lower)

theorem lt (h : Within m n f) (h' : Within m' n' f') (apart : n < m') : f < f' := by
  have steps : (n : ℚ) * 2 ^ (-25 : ℤ) < m' * 2 ^ (-25 : ℤ) :=
    mul_lt_mul_of_pos_right (by exact_mod_cast apart) (zpow_pos two_pos _)
  rw [Double.lt_iff_value_lt h.isNumber h'.isNumber]
  exact h.upper.trans_lt (steps.trans_le h'.lower)

end Within

theorem shrink_between (h : BelowOne u) : 0.5 < scaleFactor u false ∧ scaleFactor u false ≤ 1.0 :=
  ⟨within_half.lt h.within_shrink (by decide), h.within_shrink.le within_one le_rfl⟩

theorem grow_between (h : BelowOne u) : 1.0 ≤ scaleFactor u true ∧ scaleFactor u true < 2.0 :=
  ⟨within_one.le h.within_grow le_rfl, h.within_grow.lt within_two (by decide)⟩

theorem scaleFactor_between (h : BelowOne u) (invert : Bool) :
    0.5 < scaleFactor u invert ∧ scaleFactor u invert < 2.0 := by
  cases invert with
  | false => exact ⟨(shrink_between h).1, h.within_shrink.lt within_two (by decide)⟩
  | true => exact ⟨within_half.lt h.within_grow (by decide), (grow_between h).2⟩

theorem shrink_anti (hu : BelowOne u) (hv : BelowOne v) (le : u ≤ v) :
    scaleFactor v false ≤ scaleFactor u false := by
  have halves := div_le_div_of_nonneg_right (Single.value_le_of_le le) zero_le_two
  exact Double.le_of_rounds hv.rounds_shrink hu.rounds_shrink (sub_le_sub_left halves 1)

/-- Rounded twice, the order is kept. -/
theorem grow_mono (hu : BelowOne u) (hv : BelowOne v) (le : u ≤ v) :
    scaleFactor u true ≤ scaleFactor v true := by
  have falls := (Double.le_iff_value_le hv.within_shrink.isNumber hu.within_shrink.isNumber).1
    (shrink_anti hu hv le)
  exact Double.le_of_rounds hu.rounds_grow hv.rounds_grow
    (one_div_le_one_div_of_le hv.value_shrink_pos falls)

/-- A draw of zero leaves a number as it is. -/
theorem scaleFactor_of_zero (zero : u == 0.0) (invert : Bool) : scaleFactor u invert = 1.0 := by
  rcases Single.eq_zero_of_beq zero with rfl | rfl <;> cases invert <;> decide +kernel

/-! ## Runs of draws -/

namespace Generator

theorem skip_skip (g : Generator) (count more : ℕ) :
    (g.skip count).skip more = g.skip (count + more) := by
  simp only [skip, Nat.add_assoc]

theorem factor_skip (g : Generator) (count ahead : ℕ) :
    (g.skip count).factor ahead = g.factor (count + ahead) := by
  simp only [factor, peek, skip, Nat.add_assoc]

/-- The factors of a run stand side by side in the stream. -/
theorem drawFactors_eq (g : Generator) (count : ℕ) : g.drawFactors count =
    ((List.range count).map fun i => g.factor (wordsPerFactor * i),
      g.skip (wordsPerFactor * count)) := by
  induction count generalizing g with
  | zero => rfl
  | succ count ih =>
      have next : ∀ i, wordsPerFactor + wordsPerFactor * i = wordsPerFactor * (i + 1) :=
        fun i => by rw [Nat.mul_succ, Nat.add_comm]
      simp only [drawFactors, drawFactor, ih, factor_skip, skip_skip, next,
        List.range_succ_eq_map, List.map_cons, List.map_map]
      rfl

theorem factor_between (g : Generator) (ahead : ℕ) : 0.5 < g.factor ahead ∧ g.factor ahead < 2.0 :=
  scaleFactor_between (isDraw_unit _).belowOne _

end Generator

/-- Factors lie strictly between one half and two, on either side of one, and move away from one
as the draw grows. So do all factors of a run, which takes three words for each of them. -/
theorem factors_in_range :
    (∀ u, BelowOne u →
      (0.5 < scaleFactor u false ∧ scaleFactor u false ≤ 1.0) ∧
      1.0 ≤ scaleFactor u true ∧ scaleFactor u true < 2.0) ∧
    (∀ u : Float32, u == 0.0 → ∀ invert, scaleFactor u invert = 1.0) ∧
    (∀ u v, BelowOne u → BelowOne v → u ≤ v →
      scaleFactor v false ≤ scaleFactor u false ∧ scaleFactor u true ≤ scaleFactor v true) ∧
    ∀ g : Generator,
      (0.5 < g.drawFactor.1 ∧ g.drawFactor.1 < 2.0 ∧ g.drawFactor.2 = g.skip 3) ∧
      ∀ count, (∀ f ∈ (g.drawFactors count).1, 0.5 < f ∧ f < 2.0) ∧
        (g.drawFactors count).1 = (List.range count).map (fun i =>
          scaleFactor (Generator.unit (g.peek (3 * i)))
            (Generator.coin (g.peek (3 * i + 1)) (g.peek (3 * i + 2)))) ∧
        (g.drawFactors count).2 = g.skip (3 * count) := by
  refine ⟨fun u h => ⟨shrink_between h, grow_between h⟩, fun u => scaleFactor_of_zero,
    fun u v hu hv le => ⟨shrink_anti hu hv le, grow_mono hu hv le⟩, fun g => ⟨?_, fun count => ?_⟩⟩
  · obtain ⟨lower, upper⟩ := g.factor_between 0
    exact ⟨lower, upper, rfl⟩
  · rw [Generator.drawFactors_eq]
    refine ⟨fun f mem => ?_, rfl, rfl⟩
    obtain ⟨i, -, rfl⟩ := List.mem_map.1 mem
    exact g.factor_between (wordsPerFactor * i)

/-- The least single and the largest one below one, and a run whose words are all ones. -/
theorem factors_in_range_at_extremes :
    let least := Float32.ofBits 0x00000001
    let most := Float32.ofBits 0x3F7FFFFF
    let ones := Generator.cycling #[0xFFFFFFFF]
    (BelowOne least ∧ BelowOne most ∧ least ≤ most) ∧
    (0.5 < scaleFactor most false ∧ scaleFactor most true < 2.0) ∧
    scaleFactor most false ≤ scaleFactor least false ∧
    scaleFactor least true ≤ scaleFactor most true ∧
    scaleFactor (-0.0) true = 1.0 ∧
    (ones.drawFactors 5).2.position = 15 := by
  intro least most ones
  have low : BelowOne least := ⟨by decide, by decide⟩
  have high : BelowOne most := ⟨by decide, by decide⟩
  have order : least ≤ most := by decide
  obtain ⟨between, zero, monotone, runs⟩ := factors_in_range
  obtain ⟨falls, grows⟩ := monotone least most low high order
  obtain ⟨⟨above, -⟩, -, below⟩ := between most high
  obtain ⟨-, -, skipped⟩ := (runs ones).2 5
  refine ⟨⟨low, high, order⟩, ⟨above, below⟩, falls, grows, zero (-0.0) (by decide) true, ?_⟩
  rw [skipped]
  rfl

end WaveBus
