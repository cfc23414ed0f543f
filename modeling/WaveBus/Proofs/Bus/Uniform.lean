import WaveBus.Proofs.Bus.Digital
import WaveBus.Proofs.Single.Zero

/-! # Uniform coupling

With a distance of zero all lines pull equally at each other, and so does the pulse. Every line
then sees the same average: the number of bits that are set, which is added up without rounding,
and the pulse. Whatever that average is, only two levels are left, one for the lines that are on
and one for those that are off, and the bias is below the upper one if it is below the lower.
-/

namespace WaveBus

/-- Parameters without a distance, with a top line as strong as the others. -/
structure Params.Uniform (params : Params) : Prop where
  /-- Either zero. -/
  distance : params.distance == 0.0
  topBit : params.topBit = 1.0

/-- How many of the twelve bits of an accumulator are set. -/
def setBits (accumulator : UInt16) : ℕ :=
  (List.range 12).countP fun i => accumulator.toNat.testBit i

namespace Bus.Direct

variable {params : Params} {old : ℕ → Float32} {distance pulse : Float32} {accumulator : UInt16}
  {k m n s c : ℕ}

/-! ## Counting -/

/-- Small whole numbers are added exactly. -/
theorem whole_add (few : m + n < Single.manyTerms) :
    whole m + whole n = whole (m + n : ℕ) := by
  have finite : ∀ k ≤ m + n, (whole k).isFinite = true := fun k hk => isFinite_whole (hk.trans_lt few)
  have sum := Single.rounds_add (finite m (Nat.le_add_right m n)) (finite n (Nat.le_add_left n m))
  rw [value_whole (by omega), value_whole (by omega), ← Nat.cast_add] at sum
  have exact : Single.value (whole m + whole n) = (m + n : ℕ) :=
    sum.value_eq.trans (Single.rounded_natCast few)
  rcases Nat.eq_zero_or_pos (m + n) with none | some
  · obtain ⟨rfl, rfl⟩ : m = 0 ∧ n = 0 := by omega
    rfl
  · refine Single.eq_of_value_eq sum.isNumber (Single.isNaN_of_isFinite (finite _ le_rfl)) ?_ ?_
    · rw [exact, value_whole few]
    · rw [exact]
      exact_mod_cast some.ne'

/-- A running sum of levels counts the lines that are on. -/
theorem foldl_levels (on : ℕ → Bool) (lines : List ℕ) (few : n + lines.length < Single.manyTerms) :
    lines.foldl (fun sum c => sum + level (on c)) (whole n) = whole (n + lines.countP on : ℕ) := by
  induction lines generalizing n with
  | nil => rfl
  | cons c lines ih =>
      rw [List.length_cons] at few
      have unit : level (on c) = whole (on c).toNat := by cases on c <;> rfl
      have small : (on c).toNat ≤ 1 := Bool.toNat_le (on c)
      have step : n + (on c).toNat + lines.countP on = n + (c :: lines).countP on := by
        rw [List.countP_cons, Nat.add_assoc, Nat.add_comm (on c).toNat]
        cases on c <;> rfl
      rw [List.foldl_cons, unit, whole_add (by omega), ih (by omega), step]

/-! ## Mixing -/

theorem weight_of_zero (zero : distance == 0.0) (hk : k ≤ 12) : Bus.weight distance k = 1.0 := by
  have product : whole (k * k : ℕ) * distance == 0.0 :=
    Single.mul_zero_of_isFinite (isFinite_whole (few_squares hk)) (Single.isFinite_of_zero zero)
      (.inr zero)
  rw [weight_eq_falloff hk, falloff]
  rcases Single.eq_zero_of_beq product with same | same <;> rw [same] <;> decide +kernel

theorem inputs_of_zero (zero : params.distance == 0.0) (hs : s < 12) :
    inputs .pulseSaw params old s =
      (List.range 12).map (fun c => (old c, 1.0)) ++ [(params.pulseStrength, 1.0)] := by
  have one : ∀ c ≤ 12, weight params.distance s c = 1.0 := by
    intro c hc
    rw [← weight_eq (k := s - c + (c - s)) (by omega) (by omega), weight_of_zero zero (by omega)]
  have lines : (List.range 12).map (fun c => (old c, weight params.distance s c)) =
      (List.range 12).map fun c => (old c, 1.0) := by
    refine List.map_congr_left fun c hc => ?_
    rw [one c (List.mem_range.1 hc).le]
  rw [inputs, if_pos (by decide), lines, one 12 le_rfl]

theorem total_of_zero (zero : params.distance == 0.0) (hs : s < 12) :
    total (inputs .pulseSaw params old s) = whole 13 := by
  have ones : (inputs .pulseSaw params old s).map Prod.snd = List.replicate 13 1.0 := by
    rw [inputs_of_zero zero hs]
    rfl
  rw [total, ones]
  decide +kernel

theorem pull_of_uniform (uniform : params.Uniform) (accumulator : UInt16) (hs : s < 12) :
    pull (inputs .pulseSaw params (drive .pulseSaw params accumulator) s) =
      whole (setBits accumulator) + params.pulseStrength * 1.0 := by
  have levels : ∀ c ∈ List.range 12, drive .pulseSaw params accumulator c * 1.0 =
      level (accumulator.toNat.testBit c) := by
    have full : ∀ on, level on * 1.0 = level on := by decide +kernel
    intro c hc
    rw [← full]
    exact congrArg (· * 1.0) (scaled_eq_level uniform.topBit accumulator (List.mem_range.1 hc))
  have lines : (List.range 12).foldl (fun sum c => sum + drive .pulseSaw params accumulator c * 1.0)
      0.0 = whole (setBits accumulator) := by
    have counted := foldl_levels (n := 0) accumulator.toNat.testBit (List.range 12) (by
      rw [List.length_range]
      decide)
    rw [Nat.zero_add] at counted
    rw [setBits, ← counted]
    exact List.foldl_ext _ _ _ fun sum c hc => congrArg (sum + ·) (levels c hc)
  rw [pull, inputs_of_zero uniform.distance hs, List.map_append, List.foldl_append, List.map_map,
    List.foldl_map]
  exact congrArg (· + params.pulseStrength * 1.0) lines

/-! ## Levels -/

/-- What every line sees when `n` lines are on. -/
def shared (pulse : Float32) (n : ℕ) : Float32 := (whole n + pulse * 1.0) / whole 13

/-- What a line ends on when `n` lines are on. -/
def settled (pulse : Float32) (n : ℕ) (on : Bool) : Float32 := (level on + shared pulse n) * 0.5

theorem mix_of_uniform (uniform : params.Uniform) (accumulator : UInt16) (hs : s < 12) :
    mix .pulseSaw params (drive .pulseSaw params accumulator) s =
      settled params.pulseStrength (setBits accumulator) (accumulator.toNat.testBit s) := by
  have own : drive .pulseSaw params accumulator s = level (accumulator.toNat.testBit s) :=
    scaled_eq_level uniform.topBit accumulator hs
  rw [mix, average_eq, pull_of_uniform uniform accumulator hs, total_of_zero uniform.distance hs,
    own, settled, shared]

/-- A line that is on ends no lower, unless the average is no number and no line ends anywhere. -/
theorem lt_settled_on {bias : Float32} (above : bias < settled pulse n false) :
    bias < settled pulse n true := by
  cases number : (shared pulse n).isNaN with
  | true =>
      have spoilt : (settled pulse n false).isNaN = true :=
        Single.isNaN_mul_left (Single.isNaN_add_right number)
      exact absurd above (Single.not_lt_of_isNaN_right spoilt)
  | false =>
      exact Single.lt_of_lt_of_le above (Single.mean_le_mean Single.isFinite_zero
        Single.isFinite_one (by decide) (Single.le_refl number))

theorem sample_of_uniform (uniform : params.Uniform) (accumulator : UInt16) :
    sample .pulseSaw params accumulator = byte fun k => params.bias <
      settled params.pulseStrength (setBits accumulator) (accumulator.toNat.testBit (k + 4)) := by
  have bits : ∀ k : Fin 8, mix .pulseSaw params (drive .pulseSaw params accumulator) (k + 4) =
      settled params.pulseStrength (setBits accumulator) (accumulator.toNat.testBit (k + 4)) :=
    fun k => mix_of_uniform uniform accumulator (by omega)
  simp only [sample, bits]

theorem sample_two_levels (uniform : params.Uniform) (accumulator : UInt16) :
    (sample .pulseSaw params accumulator).toUInt16 = 0x00 ∨
      (sample .pulseSaw params accumulator).toUInt16 = (accumulator &&& 0xFFF) >>> 4 ∨
      (sample .pulseSaw params accumulator).toUInt16 = 0xFF := by
  rw [sample_of_uniform uniform]
  by_cases off : params.bias < settled params.pulseStrength (setBits accumulator) false
  · have all : ∀ on, params.bias < settled params.pulseStrength (setBits accumulator) on := by
      rintro (_ | _)
      · exact off
      · exact lt_settled_on off
    simp only [all, decide_true]
    exact .inr (.inr rfl)
  by_cases on : params.bias < settled params.pulseStrength (setBits accumulator) true
  · have own : ∀ bit, decide (params.bias <
        settled params.pulseStrength (setBits accumulator) bit) = bit := by
      rintro (_ | _)
      · exact decide_eq_false off
      · exact decide_eq_true on
    simp only [own]
    exact .inr (.inl (byte_of_word accumulator))
  · have none : ∀ bit, ¬ params.bias < settled params.pulseStrength (setBits accumulator) bit := by
      rintro (_ | _)
      · exact off
      · exact on
    simp only [none, decide_false]
    exact .inl rfl

theorem testBit_eq_of_upper {v w : UInt16} (same : (v &&& 0xFFF) >>> 4 = (w &&& 0xFFF) >>> 4)
    (k : Fin 8) : v.toNat.testBit (k + 4) = w.toNat.testBit (k + 4) := by
  rw [← byte_of_word, ← byte_of_word, ← UInt16.toNat_inj, UInt8.toNat_toUInt16,
    UInt8.toNat_toUInt16] at same
  have bits := congrArg (Nat.testBit · k) same
  rwa [testBit_byte, testBit_byte] at bits

theorem sample_eq_of_setBits (uniform : params.Uniform) {v w : UInt16}
    (upper : (v &&& 0xFFF) >>> 4 = (w &&& 0xFFF) >>> 4) (count : setBits v = setBits w) :
    sample .pulseSaw params v = sample .pulseSaw params w := by
  rw [sample_of_uniform uniform, sample_of_uniform uniform, count]
  simp only [testBit_eq_of_upper upper]

end Bus.Direct

/-- Without a distance a line ends on one of two levels, which depend on the number of bits that
are set. So a sample is blank, full, or the upper eight bits of the accumulator, and of the lower
four bits it matters only how many are set. -/
theorem uniform_has_two_levels {params : Params} (uniform : params.Uniform) :
    let bus := Bus.make .pulseSaw params
    (∃ off on : ℕ → Float32, ∀ v s,
      bus.settle (bus.drive v) s = if v.toNat.testBit s then on (setBits v) else off (setBits v)) ∧
    (∀ v, (bus.sample v).toUInt16 = 0x00 ∨ (bus.sample v).toUInt16 = (v &&& 0xFFF) >>> 4 ∨
      (bus.sample v).toUInt16 = 0xFF) ∧
    ∀ v w : UInt16, (v &&& 0xFFF) >>> 4 = (w &&& 0xFFF) >>> 4 → setBits v = setBits w →
      bus.sample v = bus.sample w := by
  intro bus
  simp only [bus, Bus.Direct.sample_make]
  refine ⟨⟨(Bus.Direct.settled params.pulseStrength · false),
    (Bus.Direct.settled params.pulseStrength · true), fun v s => ?_⟩,
    Bus.Direct.sample_two_levels uniform, fun v w => Bus.Direct.sample_eq_of_setBits uniform⟩
  rw [Bus.Direct.settle_eq_mix .pulseSaw params (Bus.Direct.holds_drive .pulseSaw params v),
    Bus.Direct.mix_of_uniform uniform v s.isLt]
  cases v.toNat.testBit s <;> rfl

/-- A pulse below zero pulls the lines that are off below the bias and no others. -/
theorem uniform_has_two_levels_0xABC :
    let params : Params := ⟨0.25, -2.5, 1.0, -0.0, 0.0⟩
    let endless : Params := ⟨3e38, .ofBits 0x7F800000, 1.0, 0.0, 0.0⟩
    (params.Uniform ∧ endless.Uniform) ∧
    ((0xABC : UInt16) &&& 0xFFF) >>> 4 = ((0xAB3 : UInt16) &&& 0xFFF) >>> 4 ∧
    setBits 0xABC = setBits 0xAB3 ∧
    (Bus.make .pulseSaw params).sample 0xABC = (Bus.make .pulseSaw params).sample 0xAB3 ∧
    ((Bus.make .pulseSaw endless).sample 0x010).toUInt16 ∈ [0x00, 0x01, 0xFF] := by
  intro params endless
  have uniform : params.Uniform := ⟨by decide, rfl⟩
  have uniform' : endless.Uniform := ⟨by decide, rfl⟩
  have upper : ((0xABC : UInt16) &&& 0xFFF) >>> 4 = ((0xAB3 : UInt16) &&& 0xFFF) >>> 4 := by
    decide
  have count : setBits 0xABC = setBits 0xAB3 := by decide
  obtain ⟨-, -, same⟩ := uniform_has_two_levels uniform
  obtain ⟨-, three, -⟩ := uniform_has_two_levels uniform'
  refine ⟨⟨uniform, uniform'⟩, upper, count, same 0xABC 0xAB3 upper count, ?_⟩
  rcases three 0x010 with none | own | all
  · rw [none]
    decide
  · rw [own]
    decide
  · rw [all]
    decide

end WaveBus
