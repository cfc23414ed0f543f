import WaveBus.Proofs.Bus.Weight
import WaveBus.Score

/-! # Strengths from zero to one

Where the parameters give no line a strength beyond one, no line gets one: not by the fold or
the blend, and not by the mixing, since the weighted levels of a line add up to no more than
the weights do, however both sums are rounded. So a bias of one is never exceeded, and a
bias below zero always.
-/

namespace WaveBus

open Single (InUnit UpTo)

/-- Parameters with a reach and with all strengths from zero to one. -/
structure Params.Bounded (params : Params) : Prop where
  reach : Bus.Reach params.distance
  topBit : InUnit params.topBit
  stMix : InUnit params.stMix
  pulseStrength : InUnit params.pulseStrength

namespace Bus

variable {wave : Wave} {params : Params} {accumulator : UInt16}

namespace Direct

variable {old : ℕ → Float32} {seen : List (Float32 × Float32)} {s : ℕ}

/-! ## What drives the lines -/

theorem inUnit_bit (accumulator : UInt16) (i : ℕ) : InUnit (bit accumulator i) := by
  rw [bit]
  split
  · exact Single.inUnit_one
  · exact Single.inUnit_zero

theorem inUnit_scaled (strength : InUnit params.topBit) (accumulator : UInt16) (i : ℕ) :
    InUnit (scaled params accumulator i) := by
  rw [scaled]
  split
  · exact (inUnit_bit accumulator 11).mul strength
  · exact inUnit_bit accumulator i

theorem inUnit_fold {i : ℕ} (levels : ∀ j < i, InUnit (old j)) (upper : Bool) :
    InUnit (fold old upper i) := by
  cases i with
  | zero => exact Single.inUnit_zero
  | succ i =>
      have below := levels i i.lt_succ_self
      cases upper with
      | false => exact below
      | true => exact below.one_sub

theorem inUnit_blend {share : Float32} {i : ℕ} (levels : ∀ j ≤ i, InUnit (old j))
    (hs : InUnit share) : InUnit (blend old share i) := by
  cases i with
  | zero => exact (levels 0 le_rfl).mul hs
  | succ i => exact (levels i i.le_succ).blend (levels (i + 1) le_rfl) hs

theorem inUnit_drive (topBit : InUnit params.topBit) (stMix : InUnit params.stMix)
    (accumulator : UInt16) (i : ℕ) : InUnit (drive wave params accumulator i) := by
  have levels := inUnit_scaled topBit accumulator
  have folded : ∀ i, InUnit ((if wave.code &&& 3 = 1 then
      fold (scaled params accumulator) (accumulator.toNat.testBit 11)
      else scaled params accumulator) i) := by
    intro i
    split
    · exact inUnit_fold (fun j _ => levels j) _
    · exact levels i
  rw [drive]
  split
  · exact inUnit_blend (fun j _ => folded j) stMix
  · exact folded i

/-! ## Mixing -/

theorem inUnit_inputs (levels : ∀ i < 12, InUnit (old i)) (pulse : InUnit params.pulseStrength) :
    ∀ p ∈ inputs wave params old s, InUnit p.1 := by
  intro p mem
  rcases mem_inputs mem with ⟨c, hc, rfl⟩ | rfl
  · exact levels c hc
  · exact pulse

namespace Weighed

theorem products (h : Weighed seen) (levels : ∀ p ∈ seen, InUnit p.1) :
    ∀ t ∈ seen.map (fun p => p.1 * p.2), InUnit t := by
  intro t ht
  obtain ⟨p, mem, rfl⟩ := List.mem_map.1 ht
  exact (levels p mem).mul (h.inUnit p mem)

/-- The pull is not negative, and does not exceed the weights. -/
theorem pull_le_total (h : Weighed seen) (levels : ∀ p ∈ seen, InUnit p.1) :
    0.0 ≤ pull seen ∧ pull seen ≤ total seen := by
  have terms := h.products levels
  have few : 0 + (seen.map fun p => p.1 * p.2).length < Single.manyTerms := by
    rw [List.length_map]
    exact h.few_terms
  have lighter : List.Forall₂ (· ≤ ·) (seen.map fun p => p.1 * p.2) (seen.map Prod.snd) := by
    rw [List.forall₂_map_left_iff, List.forall₂_map_right_iff, List.forall₂_same]
    exact fun p mem => (levels p mem).mul_le (h.inUnit p mem)
  exact ⟨(UpTo.zero.sum terms few).1.nonneg,
    UpTo.zero.sum_le_sum UpTo.zero (by decide) lighter terms h.terms few⟩

/-- The quotient of the two sums is rounded from something not above one. -/
theorem inUnit_average (h : Weighed seen) (levels : ∀ p ∈ seen, InUnit p.1) :
    InUnit (average seen) := by
  obtain ⟨nonneg, le⟩ := h.pull_le_total levels
  have finite := Single.isFinite_of_between Single.isFinite_zero h.isFinite_total nonneg le
  have above := Single.value_pos h.total_pos
  rw [average_eq]
  exact Single.inUnit_of_rounds (Single.rounds_div finite h.isFinite_total above.ne')
    (div_nonneg (Single.value_nonneg nonneg) above.le)
    ((div_le_one above).2 (Single.value_le_of_le le))

end Weighed

theorem inUnit_mix (reach : Reach params.distance) (levels : ∀ i < 12, InUnit (old i))
    (pulse : InUnit params.pulseStrength) (hs : s < 12) : InUnit (mix wave params old s) :=
  (levels s hs).mean ((weighed_inputs reach hs).inUnit_average (inUnit_inputs levels pulse))

end Direct

/-! ## The bus -/

/-- A bus on which everything that is weighed or mixed stays from zero to one. -/
structure InRange (bus : Bus) : Prop where
  home : bus.weights.get 0 = 1.0
  falling : ∀ k : Fin 12, bus.weights.get k.succ ≤ bus.weights.get k.castSucc
  weights : ∀ k, InUnit (bus.weights.get k)
  /-- Nothing is divided by zero, or by a sum that has overflowed. -/
  totals : ∀ s, (bus.totalWeight s).isFinite = true ∧ 1.0 ≤ bus.totalWeight s
  lines : ∀ accumulator s, InUnit ((bus.drive accumulator).get s)
  mixed : ∀ accumulator s, InUnit (bus.settle (bus.drive accumulator) s)

theorem get_weights (wave : Wave) (params : Params) (k : Fin 13) :
    (make wave params).weights.get k = weight params.distance k :=
  Vector.getElem_ofFn k.isLt

theorem totalWeight_make (wave : Wave) (params : Params) (old : ℕ → Float32) (s : Fin 12) :
    (make wave params).totalWeight s = Direct.total (Direct.inputs wave params old s) := by
  rw [Direct.totalWeight_eq wave params old, Direct.total, List.foldl_map]

theorem inRange_make (bounded : params.Bounded) (wave : Wave) : InRange (make wave params) where
  home := by
    rw [get_weights]
    exact bounded.reach.weight_zero
  falling := by
    intro k
    rw [get_weights, get_weights, Fin.val_succ, Fin.val_castSucc]
    exact (bounded.reach.weight_anti k.val.le_succ k.isLt).1
  weights := by
    intro k
    rw [get_weights]
    exact bounded.reach.inUnit_weight (Nat.le_of_lt_succ k.isLt)
  totals := by
    intro s
    have weighed : Direct.Weighed (Direct.inputs wave params (fun _ => 0.0) s) :=
      Direct.weighed_inputs bounded.reach s.isLt
    rw [totalWeight_make wave params fun _ => 0.0]
    exact ⟨weighed.isFinite_total, weighed.one_le_total⟩
  lines := by
    intro accumulator s
    have level : ((make wave params).drive accumulator).get s = _ :=
      Direct.holds_drive wave params accumulator s s.isLt
    rw [level]
    exact Direct.inUnit_drive bounded.topBit bounded.stMix accumulator s
  mixed := by
    intro accumulator s
    rw [Direct.settle_eq_mix wave params (Direct.holds_drive wave params accumulator)]
    exact Direct.inUnit_mix bounded.reach
      (fun i _ => Direct.inUnit_drive bounded.topBit bounded.stMix accumulator i)
      bounded.pulseStrength s.isLt

theorem quantize_of_le {bias : Float32} {level : Fin 12 → Float32} (h : ∀ s, level s ≤ bias) :
    quantize bias level = 0x00 := by
  have clear : ∀ k : Fin 8, ¬ bias < level (outputLine k) := fun k => Single.not_lt_of_le (h _)
  rw [Direct.quantize_eq]
  simp only [clear, decide_false]
  rfl

theorem quantize_of_lt {bias : Float32} {level : Fin 12 → Float32} (h : ∀ s, bias < level s) :
    quantize bias level = 0xFF := by
  have set : ∀ k : Fin 8, bias < level (outputLine k) := fun k => h _
  rw [Direct.quantize_eq]
  simp only [set, decide_true]
  rfl

end Bus

variable {params : Params}

/-- Strengths that start from zero to one stay there, and a bias beyond them decides every
sample. -/
theorem strengths_in_range (bounded : params.Bounded) (wave : Wave) :
    (Bus.make wave params).InRange ∧
    (1.0 ≤ params.bias → render wave params = Table.ofFn fun _ => 0x00) ∧
    (params.bias < 0.0 → render wave params = Table.ofFn fun _ => 0xFF) := by
  have inRange := Bus.inRange_make bounded wave
  refine ⟨inRange, fun above => congrArg Table.ofFn (funext fun accumulator => ?_),
    fun below => congrArg Table.ofFn (funext fun accumulator => ?_)⟩
  · exact Bus.quantize_of_le fun s => Single.le_trans (inRange.mixed accumulator s).le_one above
  · exact Bus.quantize_of_lt fun s =>
      Single.lt_of_lt_of_le below (inRange.mixed accumulator s).nonneg

theorem strengths_in_range_at_quarter :
    let above : Params := ⟨1.0, 0.5, 1.0, 0.25, 0.75⟩
    let below : Params := ⟨-0.5, 0.5, 1.0, 0.25, 0.75⟩
    above.Bounded ∧ (Bus.make .pulseSawTriangle above).InRange ∧
    render .pulseSawTriangle above = Table.ofFn (fun _ => 0x00) ∧
    render .pulseSawTriangle below = Table.ofFn (fun _ => 0xFF) := by
  intro above below
  have reach : Bus.Reach 0.25 := ⟨by decide, by decide⟩
  have topBit : InUnit 1.0 := Single.inUnit_one
  have stMix : InUnit 0.75 := ⟨by decide, by decide⟩
  have pulseStrength : InUnit 0.5 := ⟨by decide, by decide⟩
  have bounded : above.Bounded := ⟨reach, topBit, stMix, pulseStrength⟩
  have bounded' : below.Bounded := ⟨reach, topBit, stMix, pulseStrength⟩
  obtain ⟨inRange, clear, -⟩ := strengths_in_range bounded .pulseSawTriangle
  obtain ⟨-, -, set⟩ := strengths_in_range bounded' .pulseSawTriangle
  exact ⟨bounded, inRange, clear (by decide), set (by decide)⟩

end WaveBus
