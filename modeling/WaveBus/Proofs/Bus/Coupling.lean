import WaveBus.Proofs.Bus.Strength

/-! # Stronger lines

The levels of the pulse and of the top bit only pull other lines up: with a stronger pulse or a
stronger top bit, every bit that was set stays set. All other lines and all weights are the
same in both buses, so what the two lines add comes last in every sum. It may overflow there,
but never meets the opposite infinity, and the order is kept up to the comparison with the
bias.
-/

namespace WaveBus

open Single (InUnit UpTo)

/-- Parameters that agree but for the pulse and the top bit, both finite, and neither weaker. -/
structure Params.Weaker (weak strong : Params) : Prop where
  bias : weak.bias = strong.bias
  distance : weak.distance = strong.distance
  stMix : weak.stMix = strong.stMix
  finite_pulse : weak.pulseStrength.isFinite = true
  finite_pulse' : strong.pulseStrength.isFinite = true
  pulse_le : weak.pulseStrength ≤ strong.pulseStrength
  finite_top : weak.topBit.isFinite = true
  finite_top' : strong.topBit.isFinite = true
  top_le : weak.topBit ≤ strong.topBit

namespace Bus.Direct

variable {wave : Wave} {weak strong : Params} {old old' : ℕ → Float32} {s : ℕ}

/-- Twelve lines that are the same but for a top line that is higher on one side. -/
structure TopBelow (old old' : ℕ → Float32) : Prop where
  inUnit : ∀ i < 11, InUnit (old i)
  same : ∀ i < 11, old i = old' i
  finite : (old 11).isFinite = true
  finite' : (old' 11).isFinite = true
  le : old 11 ≤ old' 11

/-! ## What drives the lines -/

theorem topBelow_scaled (weaker : weak.Weaker strong) (accumulator : UInt16) :
    TopBelow (scaled weak accumulator) (scaled strong accumulator) := by
  have below : ∀ i < 11, ∀ params, scaled params accumulator i = bit accumulator i :=
    fun i hi params => if_neg hi.ne
  have top := inUnit_bit accumulator 11
  refine ⟨fun i hi => ?_, fun i hi => ?_, ?_, ?_, ?_⟩
  · rw [below i hi]
    exact inUnit_bit accumulator i
  · rw [below i hi, below i hi]
  · exact top.isFinite_mul_left weaker.finite_top
  · exact top.isFinite_mul_left weaker.finite_top'
  · exact Single.mul_le_mul_left top.isFinite weaker.finite_top weaker.finite_top' top.nonneg
      weaker.top_le

/-- A fold takes its top line from the line below it. -/
theorem TopBelow.fold (h : TopBelow old old') (upper : Bool) :
    TopBelow (fold old upper) (fold old' upper) := by
  have levels : ∀ i < 12, InUnit (Direct.fold old upper i) := fun i hi =>
    inUnit_fold (fun j hj => h.inUnit j (by omega)) upper
  have same : ∀ i < 12, Direct.fold old upper i = Direct.fold old' upper i := by
    intro i hi
    cases i with
    | zero => rfl
    | succ i => rw [Direct.fold, Direct.fold, h.same i (by omega)]
  have top := levels 11 (by decide)
  refine ⟨fun i hi => levels i (by omega), fun i hi => same i (by omega), top.isFinite, ?_, ?_⟩
  · rw [← same 11 (by decide)]
    exact top.isFinite
  · rw [← same 11 (by decide)]
    exact Single.le_refl top.isNaN

/-- A blend takes a share of its top line from the line below it, which is the same. -/
theorem TopBelow.blend {share : Float32} (h : TopBelow old old') (hs : InUnit share) :
    TopBelow (blend old share) (blend old' share) := by
  have below : InUnit (old 10 * (1.0 - share)) := (h.inUnit 10 (by decide)).mul hs.one_sub
  have own := hs.isFinite_mul_right h.finite
  have own' := hs.isFinite_mul_right h.finite'
  have le := Single.mul_le_mul_of_finite h.finite h.finite' hs.isFinite hs.nonneg h.le
  refine ⟨fun i hi => inUnit_blend (fun j hj => h.inUnit j (by omega)) hs, fun i hi => ?_, ?_, ?_,
    ?_⟩
  · cases i with
    | zero => rw [Direct.blend, Direct.blend, h.same 0 (by decide)]
    | succ i => rw [Direct.blend, Direct.blend, h.same i (by omega), h.same (i + 1) hi]
  · exact below.upTo_one.isFinite_add (by decide) own
  · rw [Direct.blend, ← h.same 10 (by decide)]
    exact below.upTo_one.isFinite_add (by decide) own'
  · rw [Direct.blend, Direct.blend, ← h.same 10 (by decide)]
    exact Single.add_le_add below.isFinite below.isFinite (Single.le_refl below.isNaN) le

theorem topBelow_drive (weaker : weak.Weaker strong) (stMix : InUnit weak.stMix) (wave : Wave)
    (accumulator : UInt16) :
    TopBelow (drive wave weak accumulator) (drive wave strong accumulator) := by
  have levels := topBelow_scaled weaker accumulator
  cases wave with
  | pulseTriangle => exact levels.fold _
  | pulseSaw => exact levels
  | sawTriangle | pulseSawTriangle =>
      have blended : TopBelow (blend (scaled weak accumulator) weak.stMix)
          (blend (scaled strong accumulator) strong.stMix) := by
        rw [← weaker.stMix]
        exact levels.blend stMix
      exact blended

/-! ## Mixing -/

/-- What the lines below the top one add to a pull. -/
def lowerPull (distance : Float32) (old : ℕ → Float32) (s : ℕ) : Float32 :=
  ((List.range 11).map fun c => old c * weight distance s c).foldl (· + ·) 0.0

/-- The top line and the pulse come last. -/
theorem pull_inputs (wave : Wave) (params : Params) (old : ℕ → Float32) (s : ℕ) :
    pull (inputs wave params old s) =
      let lines := lowerPull params.distance old s + old 11 * weight params.distance s 11
      if wave.code > 4 then lines + params.pulseStrength * weight params.distance s 12
      else lines := by
  rw [pull, inputs, List.map_append, List.foldl_append, List.range_succ, List.map_append,
    List.map_append, List.foldl_append, List.map_map]
  split <;> rfl

theorem upTo_lowerPull {distance : Float32} (reach : Reach distance)
    (levels : ∀ i < 11, InUnit (old i)) (hs : s < 12) : UpTo 11 (lowerPull distance old s) := by
  have terms : ∀ t ∈ (List.range 11).map (fun c => old c * weight distance s c), InUnit t := by
    intro t ht
    obtain ⟨c, hc, rfl⟩ := List.mem_map.1 ht
    have below := List.mem_range.1 hc
    exact (levels c below).mul (inUnit_weight reach hs.le (by omega))
  have length : 0 + ((List.range 11).map fun c => old c * weight distance s c).length = 11 := by
    rw [List.length_map, List.length_range]
  have sum := (UpTo.zero.sum terms (by rw [length]; decide)).1
  rwa [length] at sum

theorem lowerPull_congr (lines : TopBelow old old') (distance : Float32) (s : ℕ) :
    lowerPull distance old s = lowerPull distance old' s := by
  have terms : ∀ c ∈ List.range 11, old c * weight distance s c = old' c * weight distance s c :=
    fun c hc => by rw [lines.same c (List.mem_range.1 hc)]
  rw [lowerPull, lowerPull, List.map_congr_left terms]

/-- Only the last sum may overflow, and what it adds to is finite. -/
theorem pull_mono (weaker : weak.Weaker strong) (reach : Reach weak.distance)
    (lines : TopBelow old old') (hs : s < 12) :
    pull (inputs wave weak old s) ≤ pull (inputs wave strong old' s) := by
  have lower := upTo_lowerPull reach lines.inUnit hs
  have top : InUnit (weight weak.distance s 11) := inUnit_weight reach hs.le (by decide)
  have pulse : InUnit (weight weak.distance s 12) := inUnit_weight reach hs.le (by decide)
  have finite := lower.isFinite_add (by decide) (top.isFinite_mul_right lines.finite)
  have finite' := lower.isFinite_add (by decide) (top.isFinite_mul_right lines.finite')
  have tops := Single.mul_le_mul_of_finite lines.finite lines.finite' top.isFinite top.nonneg
    lines.le
  have sums := Single.add_le_add (lower.isFinite (by decide)) (lower.isFinite (by decide))
    (Single.le_refl (Single.isNaN_right_of_le lower.nonneg)) tops
  -- both sides of the last sum are finite so far, so an overflow here meets no other infinity
  have pulses := Single.mul_le_mul_of_finite weaker.finite_pulse weaker.finite_pulse'
    pulse.isFinite pulse.nonneg weaker.pulse_le
  rw [pull_inputs, pull_inputs, ← weaker.distance, ← lowerPull_congr lines]
  dsimp only
  split
  · exact Single.add_le_add finite finite' sums pulses
  · exact sums

theorem mix_mono (weaker : weak.Weaker strong) (reach : Reach weak.distance)
    (lines : TopBelow old old') (hs : s < 12) :
    mix wave weak old s ≤ mix wave strong old' s := by
  have weighed : Weighed (inputs wave weak old s) := weighed_inputs reach hs
  have pulls : pull (inputs wave weak old s) ≤ pull (inputs wave strong old' s) :=
    pull_mono weaker reach lines hs
  have averages := Single.div_le_div_right weighed.isFinite_total weighed.total_pos pulls
  have own : (old s).isFinite = true ∧ (old' s).isFinite = true ∧ old s ≤ old' s := by
    rcases Nat.lt_or_eq_of_le (Nat.le_of_lt_succ hs) with below | rfl
    · have level := lines.inUnit s below
      rw [← lines.same s below]
      exact ⟨level.isFinite, level.isFinite, Single.le_refl level.isNaN⟩
    · exact ⟨lines.finite, lines.finite', lines.le⟩
  rw [mix, mix, average_eq, average_eq, ← total_congr wave weaker.distance old old']
  exact Single.mean_le_mean own.1 own.2.1 own.2.2 averages

theorem testBit_byte_mono {bit bit' : Fin 8 → Bool} (h : ∀ k, bit k = true → bit' k = true)
    {k : ℕ} (set : (byte bit).toNat.testBit k = true) : (byte bit').toNat.testBit k = true := by
  rcases Nat.lt_or_ge k 8 with small | high
  · have there := testBit_byte bit ⟨k, small⟩
    exact (testBit_byte bit' ⟨k, small⟩).trans (h ⟨k, small⟩ (there ▸ set))
  · rw [testBit_byte_of_le bit high] at set
    cases set

end Bus.Direct

variable {weak strong : Params}

/-- With a stronger pulse or top bit, no bit of a sample is lost. -/
theorem sample_mono (weaker : weak.Weaker strong) (reach : Bus.Reach weak.distance)
    (stMix : InUnit weak.stMix) (wave : Wave) (accumulator : UInt16) (k : ℕ)
    (set : ((Bus.make wave weak).sample accumulator).toNat.testBit k = true) :
    ((Bus.make wave strong).sample accumulator).toNat.testBit k = true := by
  rw [Bus.Direct.sample_make] at set ⊢
  refine Bus.Direct.testBit_byte_mono (fun k above => ?_) set
  rw [decide_eq_true_iff] at above ⊢
  rw [← weaker.bias]
  exact Single.lt_of_lt_of_le above (Bus.Direct.mix_mono weaker reach
    (Bus.Direct.topBelow_drive weaker stMix wave accumulator) (by omega))

/-- The strong pulse overflows on every line, and bit 6 stays set. -/
theorem sample_mono_of_overflow :
    let weak : Params := ⟨0.6, 0.0, -1.0, 0.0, 0.0⟩
    let strong : Params := ⟨0.6, 3e38, 3e38, 0.0, 0.0⟩
    weak.Weaker strong ∧
    ((Bus.make .pulseSaw weak).sample 0xFF0).toNat.testBit 6 = true ∧
    ((Bus.make .pulseSaw strong).sample 0xFF0).toNat.testBit 6 = true := by
  intro weak strong
  have weaker : weak.Weaker strong :=
    ⟨rfl, rfl, rfl, by decide, by decide +kernel, by decide +kernel, by decide, by decide +kernel,
      by decide +kernel⟩
  have reach : Bus.Reach weak.distance := ⟨by decide, by decide⟩
  have set : ((Bus.make .pulseSaw weak).sample 0xFF0).toNat.testBit 6 = true := by decide +kernel
  exact ⟨weaker, set, sample_mono weaker reach Single.inUnit_zero .pulseSaw 0xFF0 6 set⟩

end WaveBus
