import WaveBus.Proofs.Bus.Strength

/-! # Digital lines

As long as every line is off or fully on, mixing does not change what the lines carry, however
strongly they pull at each other: of at most thirteen weights a line has one to itself, so a
line that is on ends above 0.53, and one that is off at 0.5 or below. With a bias between the
two, a wave puts out the upper bits of its accumulator, shifted or folded as its triangle is.
-/

namespace WaveBus

open Single (InUnit UpTo)

/-- Parameters under which off and on are all that a line is read as. -/
structure Params.Digital (params : Params) : Prop where
  reach : Bus.Reach params.distance
  bias_ge : 0.5 ≤ params.bias
  bias_le : params.bias ≤ 0.53
  topBit : params.topBit = 1.0
  pulseStrength : InUnit params.pulseStrength

namespace Bus.Direct

variable {wave : Wave} {params : Params} {old : ℕ → Float32} {seen : List (Float32 × Float32)}
  {s : ℕ} {accumulator word : UInt16}

/-- The level of a line that is on or off. -/
def level (on : Bool) : Float32 := if on then 1.0 else 0.0

/-- A level that is on, or off with either zero. -/
inductive Shows : Float32 → Bool → Prop where
  | level (on : Bool) : Shows (level on) on
  | negativeZero : Shows (-0.0) false

/-- The lines carry the lower twelve bits of a word. -/
def Carries (old : ℕ → Float32) (word : UInt16) : Prop :=
  ∀ i < 12, Shows (old i) (word.toNat.testBit i)

theorem Shows.inUnit {x : Float32} {on : Bool} (h : Shows x on) : InUnit x := by
  cases h with
  | level =>
      cases on with
      | false => exact Single.inUnit_zero
      | true => exact Single.inUnit_one
  | negativeZero => exact ⟨by decide, by decide⟩

theorem Shows.eq_one {x : Float32} (h : Shows x true) : x = 1.0 := by
  cases h
  rfl

theorem Shows.le_zero {x : Float32} (h : Shows x false) : x ≤ 0.0 := by
  cases h with
  | level => decide
  | negativeZero => decide

/-! ## Mixing -/

/-- What a line that is on gets back from all the others together with its own pull. -/
theorem average_of_home (weighed : Weighed seen) (levels : ∀ p ∈ seen, InUnit p.1)
    (home : (1.0, 1.0) ∈ seen) : 1.0 / 13.0 ≤ average seen := by
  have few : 0 + (seen.map fun p => p.1 * p.2).length < Single.manyTerms := by
    rw [List.length_map]
    exact weighed.few_terms
  -- one term alone is one, and all weights together are at most thirteen
  have own : (1.0 : Float32) * 1.0 = 1.0 := by decide +kernel
  have pulled : 1.0 ≤ pull seen :=
    UpTo.zero.mem_le_sum (weighed.products levels) few
      (List.mem_map.2 ⟨(1.0, 1.0), home, own⟩)
  have light : total seen ≤ 13.0 := by
    have thirteen : Single.value 13.0 = 13 := by
      show ((13631488 : ℕ) : ℚ) * 2 ^ (-20 : ℤ) = 13
      norm_num
    have upper := weighed.upTo_total.value_le
    rw [Single.le_iff_value_le (Single.isNaN_of_isFinite weighed.isFinite_total) rfl, thirteen]
    exact upper.trans (by exact_mod_cast weighed.few)
  rw [average_eq]
  exact Single.le_trans
    (Single.div_le_div_left Single.isFinite_one (by decide) weighed.total_pos light).1
    (Single.div_le_div_right weighed.isFinite_total weighed.total_pos pulled)

/-- Only the lines that are on end above the bias. -/
theorem bias_lt_mix_iff (digital : params.Digital) (carries : Carries old word) (hs : s < 12) :
    params.bias < mix wave params old s ↔ word.toNat.testBit s = true := by
  have weighed : Weighed (inputs wave params old s) := weighed_inputs digital.reach hs
  have levels : ∀ p ∈ inputs wave params old s, InUnit p.1 :=
    inUnit_inputs (fun i hi => (carries i hi).inUnit) digital.pulseStrength
  have own := carries s hs
  rw [mix]
  cases on : word.toNat.testBit s with
  | false =>
      -- all the others pull it halfway at most
      rw [on] at own
      have below := Single.mean_le_mean own.inUnit.isFinite Single.isFinite_zero own.le_zero
        (weighed.inUnit_average levels).le_one
      have half : (0.0 + 1.0 : Float32) * 0.5 ≤ 0.5 := by decide +kernel
      exact iff_of_false (Single.not_lt_of_le (Single.le_trans below
        (Single.le_trans half digital.bias_ge))) Bool.false_ne_true
  | true =>
      rw [on] at own
      have home : (old s, 1.0) ∈ inputs wave params old s := home_mem_inputs digital.reach hs
      rw [own.eq_one] at home
      have above := Single.mean_le_mean own.inUnit.isFinite own.inUnit.isFinite
        (Single.le_refl own.inUnit.isNaN) (average_of_home weighed levels home)
      have most : (0.53 : Float32) < (1.0 + 1.0 / 13.0) * 0.5 := by decide +kernel
      rw [own.eq_one] at above ⊢
      exact iff_of_true (Single.lt_of_le_of_lt digital.bias_le
        (Single.lt_of_lt_of_le most above)) rfl

/-! ## Words -/

theorem testBit_low (word : UInt16) (i : ℕ) :
    (word &&& 0xFFF).toNat.testBit i = (decide (i < 12) && word.toNat.testBit i) := by
  have mask : (word &&& 0xFFF).toNat = word.toNat % 2 ^ 12 := by
    rw [UInt16.toNat_and, ← Nat.and_two_pow_sub_one_eq_mod]
    rfl
  rw [mask, Nat.testBit_mod_two_pow]

theorem testBit_shiftLeft_one (word : UInt16) {i : ℕ} (hi : i + 1 < 12) :
    (word <<< 1).toNat.testBit (i + 1) = word.toNat.testBit i := by
  have room : i + 1 < 16 := by omega
  rw [UInt16.toNat_shiftLeft, Nat.testBit_mod_two_pow, decide_eq_true room, Bool.true_and]
  simp [Nat.testBit_shiftLeft]

theorem testBit_shiftLeft_zero (word : UInt16) : (word <<< 1).toNat.testBit 0 = false := by
  rw [UInt16.toNat_shiftLeft, Nat.testBit_mod_two_pow]
  simp

/-- The lowest bit of a shifted word is clear, masked or not. -/
theorem shiftLeft_one_and (word : UInt16) :
    word <<< 1 &&& (0xFFF : UInt16) = word <<< 1 &&& (0xFFE : UInt16) := by
  apply UInt16.toNat_inj.1
  apply Nat.eq_of_testBit_eq
  intro i
  rw [UInt16.toNat_and, UInt16.toNat_and, Nat.testBit_and, Nat.testBit_and]
  cases i with
  | zero => rw [testBit_shiftLeft_zero, Bool.false_and, Bool.false_and]
  | succ i =>
      have masks : (0xFFF).testBit (i + 1) = (0xFFE).testBit (i + 1) :=
        (Nat.testBit_succ 0xFFF i).trans (Nat.testBit_succ 0xFFE i).symm
      exact congrArg (_ && ·) masks

theorem byte_of_word (word : UInt16) :
    (byte fun k => word.toNat.testBit (k + 4)).toUInt16 = (word &&& 0xFFF) >>> 4 := by
  apply UInt16.toNat_inj.1
  apply Nat.eq_of_testBit_eq
  intro i
  have shifted : ((word &&& 0xFFF) >>> 4).toNat.testBit i =
      (decide (i + 4 < 12) && word.toNat.testBit (i + 4)) := by
    rw [UInt16.toNat_shiftRight, Nat.testBit_shiftRight, ← testBit_low, Nat.add_comm]
    rfl
  rw [shifted, UInt8.toNat_toUInt16]
  by_cases hi : i < 8
  · rw [decide_eq_true (by omega), Bool.true_and]
    exact testBit_byte _ ⟨i, hi⟩
  · rw [decide_eq_false (by omega), Bool.false_and]
    exact testBit_byte_of_le _ (by omega)

theorem sample_of_carries (digital : params.Digital)
    (carries : Carries (drive wave params accumulator) word) :
    (sample wave params accumulator).toUInt16 = (word &&& 0xFFF) >>> 4 := by
  have bits : ∀ k : Fin 8, decide (params.bias <
      mix wave params (drive wave params accumulator) (k + 4)) = word.toNat.testBit (k + 4) := by
    intro k
    rw [Bool.eq_iff_iff, decide_eq_true_iff]
    exact bias_lt_mix_iff digital carries (by omega)
  simp only [sample, bits]
  exact byte_of_word word

/-! ## What drives the lines -/

theorem bit_eq_level (accumulator : UInt16) {i : ℕ} (hi : i < 12) :
    bit accumulator i = level (accumulator.toNat.testBit i) := by
  have low : (accumulator.toNat % 2 ^ 12).testBit i = accumulator.toNat.testBit i := by
    rw [Nat.testBit_mod_two_pow, decide_eq_true hi, Bool.true_and]
  rw [bit, show 4096 = 2 ^ 12 from rfl, low, level]

theorem scaled_eq_level (top : params.topBit = 1.0) (accumulator : UInt16) {i : ℕ} (hi : i < 12) :
    scaled params accumulator i = level (accumulator.toNat.testBit i) := by
  have full : ∀ on, level on * 1.0 = level on := by decide +kernel
  rw [scaled, top]
  split
  · subst i
    rw [bit_eq_level accumulator (by decide), full]
  · exact bit_eq_level accumulator hi

/-- Lines with the levels of a word, and how a fold or a blend moves the word. -/
theorem carries_levels (levels : ∀ i < 12, old i = level (word.toNat.testBit i)) :
    Carries old word := by
  intro i hi
  rw [levels i hi]
  exact .level _

/-- The accumulator with its lower bits turned over in the upper half of the ramp. -/
def folded (accumulator : UInt16) : UInt16 :=
  if accumulator &&& 0x800 ≠ 0 then accumulator ^^^ 0x7FF else accumulator

theorem testBit_folded (accumulator : UInt16) {i : ℕ} (hi : i < 11) :
    (folded accumulator).toNat.testBit i =
      (accumulator.toNat.testBit 11 ^^ accumulator.toNat.testBit i) := by
  have masked : (accumulator &&& 0x800).toNat = (accumulator.toNat.testBit 11).toNat * 2 ^ 11 := by
    rw [UInt16.toNat_and, ← Nat.and_two_pow]
    rfl
  have upper : accumulator &&& 0x800 ≠ 0 ↔ accumulator.toNat.testBit 11 = true := by
    rw [ne_eq, ← UInt16.toNat_inj, masked]
    cases accumulator.toNat.testBit 11 <;> decide
  rw [folded]
  cases top : accumulator.toNat.testBit 11 with
  | false =>
      rw [if_neg (by rw [upper, top]; exact Bool.false_ne_true), Bool.false_xor]
  | true =>
      have low : (2 ^ 11 - 1).testBit i = true := by
        rw [Nat.testBit_two_pow_sub_one, decide_eq_true hi]
      rw [if_pos (upper.2 top), UInt16.toNat_xor, Nat.testBit_xor, Bool.xor_comm]
      exact congrArg (· ^^ _) low

theorem carries_fold (levels : ∀ i < 12, old i = level (accumulator.toNat.testBit i)) :
    Carries (fold old (accumulator.toNat.testBit 11)) (folded accumulator <<< 1) := by
  refine carries_levels fun i hi => ?_
  cases i with
  | zero =>
      rw [testBit_shiftLeft_zero]
      rfl
  | succ i =>
      have turned : ∀ upper on, (if upper then 1.0 - level on else level on) =
          level (upper ^^ on) := by decide +kernel
      rw [testBit_shiftLeft_one _ hi, testBit_folded _ (by omega), fold, levels i (by omega), turned]

theorem carries_blend_one (levels : ∀ i < 12, old i = level (word.toNat.testBit i)) :
    Carries (blend old 1.0) word := by
  refine carries_levels fun i hi => ?_
  cases i with
  | zero =>
      have kept : ∀ on, level on * 1.0 = level on := by decide +kernel
      rw [blend, levels 0 hi, kept]
  | succ i =>
      have kept : ∀ below own, level below * (1.0 - 1.0) + level own * 1.0 = level own := by
        decide +kernel
      rw [blend, levels i (by omega), levels (i + 1) hi, kept]

theorem carries_blend_zero {share : Float32} (zero : share = 0.0 ∨ share = -0.0)
    (levels : ∀ i < 12, old i = level (word.toNat.testBit i)) :
    Carries (blend old share) (word <<< 1) := by
  intro i hi
  cases i with
  | zero =>
      rw [testBit_shiftLeft_zero, blend, levels 0 hi]
      rcases zero with rfl | rfl
      · have off : ∀ on, level on * 0.0 = level false := by decide +kernel
        rw [off]
        exact .level false
      · have off : ∀ on, level on * -0.0 = -0.0 := by decide +kernel
        rw [off]
        exact .negativeZero
  | succ i =>
      have taken : ∀ below own, level below * (1.0 - share) + level own * share = level below := by
        rcases zero with rfl | rfl <;> decide +kernel
      rw [testBit_shiftLeft_one _ hi, blend, levels i (by omega), levels (i + 1) hi, taken]
      exact .level _

/-! ## The samples -/

theorem sample_pulseSaw (digital : params.Digital) (accumulator : UInt16) :
    (sample .pulseSaw params accumulator).toUInt16 = (accumulator &&& 0xFFF) >>> 4 :=
  sample_of_carries digital
    (carries_levels fun _ hi => scaled_eq_level digital.topBit accumulator hi)

theorem sample_pulseTriangle (digital : params.Digital) (accumulator : UInt16) :
    (sample .pulseTriangle params accumulator).toUInt16 =
      (folded accumulator <<< 1 &&& 0xFFE) >>> 4 := by
  rw [← shiftLeft_one_and]
  exact sample_of_carries digital
    (carries_fold fun _ hi => scaled_eq_level digital.topBit accumulator hi)

theorem drive_of_blends (params : Params) (accumulator : UInt16)
    (blends : wave ∈ [Wave.sawTriangle, .pulseSawTriangle]) :
    drive wave params accumulator = blend (scaled params accumulator) params.stMix := by
  simp only [List.mem_cons, List.not_mem_nil, or_false] at blends
  rcases blends with rfl | rfl <;> rfl

/-- A blend that keeps all of a line, or none. -/
theorem sample_of_blends (digital : params.Digital) (accumulator : UInt16)
    (blends : wave ∈ [Wave.sawTriangle, .pulseSawTriangle]) :
    (params.stMix = 1.0 →
      (sample wave params accumulator).toUInt16 = (accumulator &&& 0xFFF) >>> 4) ∧
    (params.stMix == 0.0 →
      (sample wave params accumulator).toUInt16 = (accumulator <<< 1 &&& 0xFFF) >>> 4) := by
  have levels : ∀ i < 12, scaled params accumulator i = level (accumulator.toNat.testBit i) :=
    fun _ hi => scaled_eq_level digital.topBit accumulator hi
  have driven := drive_of_blends params accumulator blends
  refine ⟨fun one => sample_of_carries digital ?_, fun zero => sample_of_carries digital ?_⟩
  · rw [driven, one]
    exact carries_blend_one levels
  · rw [driven]
    exact carries_blend_zero (Single.eq_zero_of_beq zero) levels

end Bus.Direct

open Bus.Direct (folded)

variable {params : Params}

/-- A wave puts out the upper bits of its accumulator, and a triangle shifts or folds them. -/
theorem sample_of_digital (digital : params.Digital) (accumulator : UInt16) :
    let read := fun wave => ((Bus.make wave params).sample accumulator).toUInt16
    read .pulseSaw = (accumulator &&& 0xFFF) >>> 4 ∧
    read .pulseTriangle = (folded accumulator <<< 1 &&& 0xFFE) >>> 4 ∧
    ∀ wave ∈ [Wave.sawTriangle, .pulseSawTriangle],
      (params.stMix = 1.0 → read wave = (accumulator &&& 0xFFF) >>> 4) ∧
      (params.stMix == 0.0 → read wave = (accumulator <<< 1 &&& 0xFFF) >>> 4) := by
  intro read
  simp only [read, Bus.Direct.sample_make]
  exact ⟨Bus.Direct.sample_pulseSaw digital accumulator,
    Bus.Direct.sample_pulseTriangle digital accumulator,
    fun _ blends => Bus.Direct.sample_of_blends digital accumulator blends⟩

theorem sample_of_digital_0xABC :
    let keep : Params := ⟨0.5, 1.0, 1.0, 0.25, 1.0⟩
    let shift : Params := ⟨0.53, 0.75, 1.0, 3e38, 0.0⟩
    (keep.Digital ∧ shift.Digital) ∧
    ((Bus.make .pulseSaw keep).sample 0xABC).toUInt16 = 0xAB ∧
    ((Bus.make .pulseTriangle keep).sample 0xABC).toUInt16 = 0xA8 ∧
    ((Bus.make .sawTriangle keep).sample 0xABC).toUInt16 = 0xAB ∧
    ((Bus.make .pulseSawTriangle shift).sample 0xABC).toUInt16 = 0x57 := by
  intro keep shift
  have near : keep.Digital :=
    ⟨⟨by decide, by decide⟩, by decide, by decide +kernel, rfl, Single.inUnit_one⟩
  have far : shift.Digital :=
    ⟨⟨by decide +kernel, by decide +kernel⟩, by decide +kernel, by decide +kernel, rfl,
      ⟨by decide, by decide⟩⟩
  obtain ⟨saw, triangle, blends⟩ := sample_of_digital near 0xABC
  obtain ⟨-, -, shifted⟩ := sample_of_digital far 0xABC
  refine ⟨⟨near, far⟩, saw, triangle, ?_, ?_⟩
  · exact (blends .sawTriangle (by decide)).1 rfl
  · exact (shifted .pulseSawTriangle (by decide)).2 (by decide)

end WaveBus
