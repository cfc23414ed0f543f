import WaveBus.Proofs.Bus.Alike
import WaveBus.Proofs.Bus.Used
import WaveBus.Proofs.Score.Distance

/-! # Waves that are one wave read elsewhere

A fold moves every bit of the accumulator up one line and turns the bits over in the upper half
of the ramp; a blend that keeps nothing of a line moves them up as well. What leaves at the top
takes its strength with it. So the pulse with the triangle, and the blend at that end, are the
pulse with the sawtooth, read elsewhere and with a top line as strong as the others. At its
other end a blend is the sawtooth where it is.
-/

namespace WaveBus

namespace Bus.Direct

open Single (Alike)

variable {params : Params} {old : ℕ → Float32} {share : Float32} {accumulator : UInt16}

/-! ## Turning over -/

/-- The accumulator with its bits turned over in the upper half of the ramp. -/
def turned (accumulator : UInt16) : UInt16 :=
  accumulator ^^^ if 2048 ≤ accumulator then 0xFFF else 0

theorem testBit_top (low : accumulator < 4096) :
    accumulator.toNat.testBit 11 = true ↔ 2048 ≤ accumulator := by
  have bound : accumulator.toNat < 4096 := low
  have upper : 2048 ≤ accumulator ↔ 2048 ≤ accumulator.toNat := Iff.rfl
  rw [upper, Nat.testBit_eq_decide_div_mod_eq, decide_eq_true_iff]
  omega

theorem testBit_turned (low : accumulator < 4096) {i : ℕ} (hi : i < 12) :
    (turned accumulator).toNat.testBit i =
      (accumulator.toNat.testBit 11 ^^ accumulator.toNat.testBit i) := by
  have ones : (2 ^ 12 - 1).testBit i = true := by
    rw [Nat.testBit_two_pow_sub_one, decide_eq_true hi]
  rw [turned, UInt16.toNat_xor, Nat.testBit_xor, Bool.xor_comm]
  by_cases upper : 2048 ≤ accumulator
  · rw [if_pos upper, (testBit_top low).2 upper]
    exact congrArg (· ^^ _) ones
  · rw [if_neg upper, Bool.eq_false_iff.2 (mt (testBit_top low).1 upper)]
    exact congrArg (· ^^ _) (Nat.zero_testBit i)

/-- The top bit, the only one in which the two differ, is moved out. -/
theorem turned_shiftLeft (low : accumulator < 4096) :
    turned accumulator <<< 1 &&& (0xFFF : UInt16) = folded accumulator <<< 1 &&& (0xFFF : UInt16) := by
  apply UInt16.toNat_inj.1
  apply Nat.eq_of_testBit_eq
  intro i
  rw [testBit_low, testBit_low]
  by_cases hi : i < 12
  · cases i with
    | zero => rw [testBit_shiftLeft_zero, testBit_shiftLeft_zero]
    | succ i =>
        rw [testBit_shiftLeft_one _ hi, testBit_shiftLeft_one _ hi, testBit_turned low (by omega),
          testBit_folded _ (by omega)]
  · rw [decide_eq_false hi, Bool.false_and, Bool.false_and]

theorem toNat_mirror (low : accumulator < 4096) :
    (4095 - accumulator).toNat = 4095 - accumulator.toNat := by
  have bound : accumulator.toNat < 4096 := low
  have below : accumulator ≤ 4095 := by
    show accumulator.toNat ≤ 4095
    omega
  exact UInt16.toNat_sub_of_le _ _ below

theorem mirror_eq_xor (low : accumulator < 4096) :
    4095 - accumulator = accumulator ^^^ 0xFFF := by
  have bound : accumulator.toNat < 2 ^ 12 := low
  have difference : (4095 - accumulator).toNat = 2 ^ 12 - (accumulator.toNat + 1) := by
    rw [toNat_mirror low]
    omega
  have ones : (accumulator ^^^ 0xFFF).toNat = accumulator.toNat ^^^ (2 ^ 12 - 1) :=
    UInt16.toNat_xor _ _
  apply UInt16.toNat_inj.1
  apply Nat.eq_of_testBit_eq
  intro i
  rw [difference, ones, Nat.testBit_two_pow_sub_succ bound, Nat.testBit_xor,
    Nat.testBit_two_pow_sub_one]
  by_cases hi : i < 12
  · rw [decide_eq_true hi, Bool.true_and, Bool.xor_true]
  · have clear : accumulator.toNat.testBit i = false :=
      Nat.testBit_lt_two_pow (bound.trans_le (Nat.pow_le_pow_right two_pos (not_lt.1 hi)))
    rw [decide_eq_false hi, clear]
    rfl

/-- From both ends of the ramp the same is read. -/
theorem turned_mirror (low : accumulator < 4096) :
    turned (4095 - accumulator) = turned accumulator := by
  have bound : accumulator.toNat < 4096 := low
  have swapped : 2048 ≤ 4095 - accumulator ↔ ¬ 2048 ≤ accumulator := by
    show 2048 ≤ (4095 - accumulator).toNat ↔ ¬ 2048 ≤ accumulator.toNat
    rw [toNat_mirror low]
    omega
  have mirrored : turned (4095 - accumulator) =
      accumulator ^^^ (0xFFF ^^^ if ¬ 2048 ≤ accumulator then 0xFFF else 0) := by
    rw [turned, if_congr swapped rfl rfl, mirror_eq_xor low, UInt16.xor_assoc]
  rw [mirrored, turned]
  by_cases upper : 2048 ≤ accumulator
  · rw [if_neg (not_not.2 upper), if_pos upper, UInt16.xor_zero]
  · rw [if_pos upper, if_neg upper, UInt16.xor_self]

theorem sample_pulseTriangle_eq (params : Params) (low : accumulator < 4096) :
    sample .pulseTriangle params accumulator =
      sample .pulseSaw { params with topBit := 1.0 } (turned accumulator <<< 1 &&& 0xFFF) := by
  -- the fold reads every line but the top one, so that the top line may be given its full strength
  have unused : params.Agree .pulseTriangle { params with topBit := 1.0 } := by
    intro field used
    cases field with
    | topBit => exact absurd (by decide) used
    | bias | pulseStrength | distance | stMix => rfl
  have lines : LinesAlike (drive .pulseTriangle params accumulator)
      (drive .pulseTriangle { params with topBit := 1.0 } accumulator) :=
    fun i hi => .of_eq (drive_congr unused accumulator hi)
  rw [turned_shiftLeft low]
  exact sample_eq_pulseSaw (by decide) lines
    (carries_fold fun _ hi => scaled_eq_level rfl accumulator hi)

/-! ## Ends of the blend -/

theorem isFinite_scaled (finite : params.topBit.isFinite = true) (accumulator : UInt16) (i : ℕ) :
    (scaled params accumulator i).isFinite = true := by
  rw [scaled]
  split
  · exact (inUnit_bit accumulator 11).isFinite_mul_left finite
  · exact (inUnit_bit accumulator i).isFinite

/-- A blend that keeps all of a line takes nothing from the one below. -/
theorem blend_one_alike (below : ∀ i < 11, (old i).isFinite = true) :
    LinesAlike (blend old 1.0) old := by
  intro i hi
  cases i with
  | zero => exact Single.mul_one_alike (old 0)
  | succ i =>
      have none : old i * (1.0 - 1.0) == 0.0 :=
        Single.mul_zero_of_isFinite (below i (by omega)) (by decide) (.inr (by decide))
      exact (Single.zero_add_alike none _).trans (Single.mul_one_alike (old (i + 1)))

/-- A blend that keeps nothing of a line is a fold that turns nothing over. -/
theorem blend_zero_alike (zero : share == 0.0) (finite : ∀ i < 12, (old i).isFinite = true) :
    LinesAlike (blend old share) (fold old false) := by
  have rest : (1.0 : Float32) - share = 1.0 := by
    rcases Single.eq_zero_of_beq zero with rfl | rfl <;> decide +kernel
  have none : ∀ i < 12, old i * share == 0.0 := fun i hi =>
    Single.mul_zero_of_isFinite (finite i hi) (Single.isFinite_of_zero zero) (.inr zero)
  intro i hi
  cases i with
  | zero => exact .zeros (none 0 hi) (show (0.0 : Float32) == 0.0 by decide)
  | succ i =>
      rw [blend, rest]
      exact (Single.add_zero_alike (none (i + 1) hi) _).trans (Single.mul_one_alike (old i))

theorem carries_moved (params : Params) (accumulator : UInt16) :
    Carries (fold (scaled params accumulator) false) (accumulator <<< 1) := by
  refine carries_levels fun i hi => ?_
  cases i with
  | zero =>
      rw [testBit_shiftLeft_zero]
      rfl
  | succ i =>
      rw [testBit_shiftLeft_one _ hi]
      exact scaled_of_lt params accumulator (by omega)

theorem sample_blend_one (one : params.stMix = 1.0) (accumulator : UInt16) :
    sample .pulseSawTriangle params accumulator = sample .pulseSaw params accumulator := by
  have levels : ∀ i < 11, (scaled params accumulator i).isFinite = true := by
    intro i hi
    rw [scaled, if_neg hi.ne]
    exact (inUnit_bit accumulator i).isFinite
  have lines : LinesAlike (drive .pulseSawTriangle params accumulator)
      (drive .pulseSaw params accumulator) := by
    rw [drive_of_blends params accumulator (by decide), one]
    exact blend_one_alike levels
  exact sample_of_alike ⟨rfl, rfl, rfl⟩ (iff_of_true (by decide) (by decide)) lines

theorem drive_blend_zero (zero : params.stMix == 0.0) (finite : params.topBit.isFinite = true)
    (accumulator : UInt16) : LinesAlike (drive .pulseSawTriangle params accumulator)
      (fold (scaled params accumulator) false) := by
  rw [drive_of_blends params accumulator (by decide)]
  exact blend_zero_alike zero fun i _ => isFinite_scaled finite accumulator i

theorem sample_blend_zero (zero : params.stMix == 0.0) (finite : params.topBit.isFinite = true)
    (accumulator : UInt16) :
    sample .pulseSawTriangle params accumulator =
      sample .pulseSaw { params with topBit := 1.0 } (accumulator <<< 1 &&& 0xFFF) :=
  sample_eq_pulseSaw (by decide) (drive_blend_zero zero finite accumulator)
    (carries_moved params accumulator)

/-- In the lower half of the ramp a fold turns nothing over. -/
theorem sample_blend_zero_of_lt (zero : params.stMix == 0.0)
    (finite : params.topBit.isFinite = true) (lower : accumulator < 2048) :
    sample .pulseSawTriangle params accumulator = sample .pulseTriangle params accumulator := by
  have clear : accumulator.toNat.testBit 11 = false := Nat.testBit_lt_two_pow (i := 11) lower
  have driven : drive .pulseTriangle params accumulator =
      fold (scaled params accumulator) (accumulator.toNat.testBit 11) := rfl
  have lines := drive_blend_zero zero finite accumulator
  rw [← clear, ← driven] at lines
  exact sample_of_alike ⟨rfl, rfl, rfl⟩ (iff_of_true (by decide) (by decide)) lines

theorem shiftLeft_add_half (accumulator : UInt16) :
    (accumulator + 2048) <<< 1 &&& (0xFFF : UInt16) = accumulator <<< 1 &&& (0xFFF : UInt16) := by
  have mask : ∀ word : UInt16, (word <<< 1 &&& (0xFFF : UInt16)).toNat = word.toNat * 2 % 2 ^ 12 := by
    intro word
    have moved : (word <<< 1).toNat = word.toNat * 2 % 2 ^ 16 := by
      rw [UInt16.toNat_shiftLeft, Nat.shiftLeft_eq]
      rfl
    have low : (word <<< 1 &&& (0xFFF : UInt16)).toNat = (word <<< 1).toNat % 2 ^ 12 := by
      rw [UInt16.toNat_and, ← Nat.and_two_pow_sub_one_eq_mod]
      rfl
    rw [low, moved]
    omega
  apply UInt16.toNat_inj.1
  rw [mask, mask, UInt16.toNat_add]
  show (accumulator.toNat + 2048) % 2 ^ 16 * 2 % 2 ^ 12 = _
  omega

end Bus.Direct

/-- A table that reads the same from both ends of the ramp is its own reverse. -/
theorem Table.reverse_samples {table : Table}
    (mirrored : ∀ v : UInt16, v < 4096 → table.get v = table.get (4095 - v)) :
    table.samples.reverse = table.samples := by
  refine Vector.ext fun i hi => ?_
  have size : i < 4096 := hi
  have other : 4096 - 1 - i < tableSize := by
    show _ < 4096
    omega
  have number : (UInt16.ofNat i).toNat = i := by
    rw [UInt16.toNat_ofNat']
    omega
  have low : UInt16.ofNat i < 4096 := by
    show (UInt16.ofNat i).toNat < 4096
    rwa [number]
  have place : UInt16.ofNat (4096 - 1 - i) = 4095 - UInt16.ofNat i := by
    apply UInt16.toNat_inj.1
    rw [Bus.Direct.toNat_mirror low, number, UInt16.toNat_ofNat']
    omega
  calc
    table.samples.reverse[i] = table.samples[4096 - 1 - i] := Vector.getElem_reverse hi
    _ = table.get (UInt16.ofNat (4096 - 1 - i)) := (table.get_ofNat ⟨4096 - 1 - i, other⟩).symm
    _ = table.get (UInt16.ofNat i) := by rw [place, ← mirrored _ low]
    _ = table.samples[i] := table.get_ofNat ⟨i, hi⟩

/-- The pulse with the triangle is the pulse with the sawtooth, read where the bits of the
accumulator, turned over in the upper half of the ramp, lie one line higher. So its table reads
the same from both ends. -/
theorem triangle_reindexes_saw (params : Params) :
    let triangle := Bus.make .pulseTriangle params
    let saw := Bus.make .pulseSaw { params with topBit := 1.0 }
    (∀ v : UInt16, v < 4096 →
      let m : UInt16 := if 2048 ≤ v then 0xFFF else 0
      triangle.sample v = saw.sample (((v ^^^ m) <<< 1) &&& 0xFFF) ∧
      triangle.sample v = triangle.sample (4095 - v)) ∧
    (render .pulseTriangle params).samples.reverse = (render .pulseTriangle params).samples := by
  intro triangle saw
  have reindexed : ∀ v : UInt16, v < 4096 →
      triangle.sample v = saw.sample (Bus.Direct.turned v <<< 1 &&& 0xFFF) := by
    intro v low
    rw [Bus.Direct.sample_make, Bus.Direct.sample_make]
    exact Bus.Direct.sample_pulseTriangle_eq params low
  have mirrored : ∀ v : UInt16, v < 4096 → triangle.sample v = triangle.sample (4095 - v) := by
    intro v low
    have inside : 4095 - v < 4096 := by
      show (4095 - v).toNat < 4096
      rw [Bus.Direct.toNat_mirror low]
      omega
    rw [reindexed v low, reindexed (4095 - v) inside, Bus.Direct.turned_mirror low]
  refine ⟨fun v low => ⟨reindexed v low, mirrored v low⟩, Table.reverse_samples fun v low => ?_⟩
  rw [get_render, get_render]
  exact mirrored v low

theorem triangle_reindexes_saw_0xABC :
    let params : Params := ⟨0.9161022, 1.879311, .ofBits 0x7FC00000, 0.02331964, -0.0⟩
    let triangle := Bus.make .pulseTriangle params
    let saw := Bus.make .pulseSaw { params with topBit := 1.0 }
    (0xABC : UInt16) < 4096 ∧ triangle.sample 0xABC = saw.sample 0xA86 ∧
      triangle.sample 0xABC = triangle.sample 0x543 := by
  intro params triangle saw
  have low : (0xABC : UInt16) < 4096 := by decide
  obtain ⟨reindexed, mirrored⟩ := (triangle_reindexes_saw params).1 0xABC low
  exact ⟨low, reindexed, mirrored⟩

/-- The blend of sawtooth and triangle, with the pulse, at its ends. Where it keeps all of a line
it is the sawtooth, whatever the strength of the top line. Where it keeps nothing, and the top
line has a finite strength to lose, it is the sawtooth read one line higher: its table repeats
after half of it, and starts like that of the triangle. -/
theorem blend_endpoints (params : Params) :
    let blend := Bus.make .pulseSawTriangle params
    (params.stMix = 1.0 → ∀ v, blend.sample v = (Bus.make .pulseSaw params).sample v) ∧
    (params.stMix == 0.0 → params.topBit.isFinite = true →
      let saw := Bus.make .pulseSaw { params with topBit := 1.0 }
      let table := render .pulseSawTriangle params
      (∀ v, blend.sample v = saw.sample (v <<< 1 &&& 0xFFF)) ∧
      ∀ v : UInt16, v < 2048 → table.get (v + 2048) = table.get v ∧
        table.get v = (render .pulseTriangle params).get v) := by
  intro blend
  refine ⟨fun one v => ?_, fun zero finite => ?_⟩
  · rw [Bus.Direct.sample_make, Bus.Direct.sample_make]
    exact Bus.Direct.sample_blend_one one v
  intro saw table
  have moved : ∀ v, blend.sample v = saw.sample (v <<< 1 &&& 0xFFF) := by
    intro v
    rw [Bus.Direct.sample_make, Bus.Direct.sample_make]
    exact Bus.Direct.sample_blend_zero zero finite v
  refine ⟨moved, fun v lower => ⟨?_, ?_⟩⟩
  · rw [get_render, get_render]
    exact (moved (v + 2048)).trans ((congrArg saw.sample
      (Bus.Direct.shiftLeft_add_half v)).trans (moved v).symm)
  · rw [get_render, get_render, Bus.Direct.sample_make, Bus.Direct.sample_make]
    exact Bus.Direct.sample_blend_zero_of_lt zero finite lower

/-- All of a line is kept next to a top line without a number, and nothing next to a negative one. -/
theorem blend_endpoints_0x765 :
    let keep : Params := ⟨0.9498384, 1.667302, .ofBits 0x7FC00000, 0.006, 1.0⟩
    let lose : Params := ⟨0.9498384, 1.667302, -2.5, 0.006, -0.0⟩
    let table := render .pulseSawTriangle lose
    (keep.stMix = 1.0 ∧ lose.stMix == 0.0 ∧ lose.topBit.isFinite = true ∧
      (0x765 : UInt16) < 2048) ∧
    (Bus.make .pulseSawTriangle keep).sample 0x765 = (Bus.make .pulseSaw keep).sample 0x765 ∧
    (Bus.make .pulseSawTriangle lose).sample 0x765 =
      (Bus.make .pulseSaw { lose with topBit := 1.0 }).sample 0xECA ∧
    table.get 0xF65 = table.get 0x765 ∧
    table.get 0x765 = (render .pulseTriangle lose).get 0x765 := by
  intro keep lose table
  have zero : lose.stMix == 0.0 := by decide
  have finite : lose.topBit.isFinite = true := by decide
  have lower : (0x765 : UInt16) < 2048 := by decide
  obtain ⟨moved, halves⟩ := (blend_endpoints lose).2 zero finite
  obtain ⟨repeated, start⟩ := halves 0x765 lower
  exact ⟨⟨rfl, zero, finite, lower⟩, (blend_endpoints keep).1 rfl 0x765, moved 0x765, repeated,
    start⟩

end WaveBus
