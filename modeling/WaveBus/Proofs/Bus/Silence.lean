import WaveBus.Proofs.Bus.Digital
import WaveBus.Proofs.Bus.Used
import WaveBus.Proofs.Score.Distance
import WaveBus.Proofs.Single.Zero

/-! # Parameters that silence a wave

Where a field that the wave uses holds no number, no line ends with one: on its way into the
average a NaN passes every line that pulls at another. The same comes of an infinite distance,
for which the pull of a line on itself is no number. Nothing is above the bias then, so every
sample is zero, and the score is the number of bits that the other table has set.
-/

namespace WaveBus

/-- A used field without a number, or an infinite distance. -/
inductive Params.Degenerate (wave : Wave) (params : Params) : Prop where
  | nan {field : Field} (used : field ∉ wave.unused) (h : (params.get field).isNaN = true)
  | far (h : params.distance.isInf = true)

/-- How many bits of all samples are set. -/
def Table.countOnes (table : Table) : ℕ :=
  (Finset.univ.filter fun place => table.bit place = true).card

namespace Bus.Direct

variable {wave : Wave} {params : Params} {old : ℕ → Float32} {seen : List (Float32 × Float32)}
  {accumulator : UInt16} {s c : ℕ}

/-! ## Mixing -/

/-- One level or one weight without a number is enough. -/
theorem isNaN_average_of_mem {p : Float32 × Float32} (mem : p ∈ seen)
    (h : p.1.isNaN = true ∨ p.2.isNaN = true) : (average seen).isNaN = true := by
  rw [average_eq]
  rcases h with level | weight
  · exact Single.isNaN_div_left (Single.isNaN_foldl_add_of_mem
      (List.mem_map.2 ⟨p, mem, rfl⟩) (Single.isNaN_mul_left level))
  · exact Single.isNaN_div_right (Single.isNaN_foldl_add_of_mem
      (List.mem_map.2 ⟨p, mem, rfl⟩) weight)

theorem isNaN_mix_of_mem {p : Float32 × Float32} (mem : p ∈ inputs wave params old s)
    (h : p.1.isNaN = true ∨ p.2.isNaN = true) : (mix wave params old s).isNaN = true :=
  Single.isNaN_mul_left (Single.isNaN_add_right (isNaN_average_of_mem mem h))

theorem line_mem_inputs (hc : c < 12) :
    (old c, weight params.distance s c) ∈ inputs wave params old s :=
  List.mem_append_left _ (List.mem_map.2 ⟨c, List.mem_range.2 hc, rfl⟩)

theorem pulse_mem_inputs (pulses : wave.code > 4) :
    (params.pulseStrength, weight params.distance s 12) ∈ inputs wave params old s := by
  rw [inputs, if_pos pulses]
  exact List.mem_append_right _ (List.mem_singleton.2 rfl)

/-- The pull of a line on itself has the distance times zero below it. -/
theorem isNaN_weight_self {distance : Float32}
    (h : distance.isNaN = true ∨ distance.isInf = true) (s : ℕ) :
    (weight distance s s).isNaN = true := by
  have zero : whole 0 == 0.0 := by decide
  have product : (whole 0 * distance).isNaN = true := by
    rcases h with none | infinite
    · exact Single.isNaN_mul_right none
    · exact Single.isNaN_zero_mul zero infinite
  rw [weight, sub_self, zero_pow two_ne_zero]
  exact Single.isNaN_div_right (Single.isNaN_add_right product)

theorem isNaN_mix_of_distance (h : params.distance.isNaN = true ∨ params.distance.isInf = true)
    (hs : s < 12) : (mix wave params old s).isNaN = true :=
  isNaN_mix_of_mem (line_mem_inputs hs) (.inr (isNaN_weight_self h s))

theorem isNaN_mix_of_line (hc : c < 12) (h : (old c).isNaN = true) :
    (mix wave params old s).isNaN = true :=
  isNaN_mix_of_mem (line_mem_inputs hc) (.inl h)

/-! ## What drives the lines -/

/-- The top line has no number even where its bit is clear. -/
theorem isNaN_drive_top (h : params.topBit.isNaN = true) (used : .topBit ∉ wave.unused)
    (accumulator : UInt16) : (drive wave params accumulator 11).isNaN = true := by
  have top : (scaled params accumulator 11).isNaN = true := by
    rw [scaled, if_pos rfl]
    exact Single.isNaN_mul_right h
  cases wave with
  | pulseTriangle => exact absurd (by decide) used
  | pulseSaw => exact top
  | sawTriangle | pulseSawTriangle =>
      rw [drive_of_blends params accumulator (by decide)]
      exact Single.isNaN_add_right (Single.isNaN_mul_left top)

theorem isNaN_drive_lowest (h : params.stMix.isNaN = true) (used : .stMix ∉ wave.unused)
    (accumulator : UInt16) : (drive wave params accumulator 0).isNaN = true := by
  cases wave with
  | pulseTriangle | pulseSaw => exact absurd (by decide) used
  | sawTriangle | pulseSawTriangle =>
      rw [drive_of_blends params accumulator (by decide)]
      exact Single.isNaN_mul_right h

/-! ## The samples -/

theorem not_bias_lt_mix (h : params.Degenerate wave) (hs : s < 12) :
    ¬ params.bias < mix wave params (drive wave params accumulator) s := by
  cases h with
  | far infinite =>
      exact Single.not_lt_of_isNaN_right (isNaN_mix_of_distance (.inr infinite) hs)
  | @nan field used h =>
      cases field with
      | bias => exact Single.not_lt_of_isNaN_left h
      | distance =>
          exact Single.not_lt_of_isNaN_right (isNaN_mix_of_distance (.inl h) hs)
      | pulseStrength =>
          have pulses : wave.code > 4 := by
            cases wave with
            | sawTriangle => exact absurd (by decide) used
            | _ => decide
          exact Single.not_lt_of_isNaN_right (isNaN_mix_of_mem (pulse_mem_inputs pulses) (.inl h))
      | topBit =>
          exact Single.not_lt_of_isNaN_right
            (isNaN_mix_of_line (by decide) (isNaN_drive_top h used accumulator))
      | stMix =>
          exact Single.not_lt_of_isNaN_right
            (isNaN_mix_of_line (by decide) (isNaN_drive_lowest h used accumulator))

theorem sample_of_degenerate (h : params.Degenerate wave) (accumulator : UInt16) :
    sample wave params accumulator = 0x00 := by
  have clear : ∀ k : Fin 8, ¬ params.bias < mix wave params (drive wave params accumulator)
      (k + 4) := fun k => not_bias_lt_mix h (by omega)
  simp only [sample, clear, decide_false]
  rfl

end Bus.Direct

/-- The distance from a table without a set bit. -/
theorem score_of_silent {wave : Wave} {params : Params}
    (silent : ∀ v, (Bus.make wave params).sample v = 0x00) (table : Table) :
    score wave params table = table.countOnes := by
  have off : ∀ place, (render wave params).bit place = false := by
    intro place
    rw [Table.bit, samples_render, silent]
    exact BitVec.getElem_zero place.2.isLt
  have differs : ∀ place, (render wave params).bit place ≠ table.bit place ↔
      table.bit place = true := by
    intro place
    rw [off]
    cases table.bit place <;> decide
  rw [score_eq_distance, Table.distance, hammingDist, Table.countOnes]
  exact congrArg Finset.card (Finset.filter_congr fun place _ => differs place)

/-- Degenerate parameters predict nothing but zeros. A NaN anywhere else changes no sample, and
neither does anything else that an unused field can hold. -/
theorem degenerate_is_silent (wave : Wave) (params : Params) :
    (params.Degenerate wave →
      (∀ v, (Bus.make wave params).sample v = 0x00) ∧
      ∀ table, score wave params table = table.countOnes) ∧
    ∀ other, params.Agree wave other →
      (Bus.make wave other).sample = (Bus.make wave params).sample := by
  refine ⟨fun degenerate => ?_, fun other agree => agree.sample_eq.symm⟩
  have silent : ∀ v, (Bus.make wave params).sample v = 0x00 := by
    intro v
    rw [Bus.Direct.sample_make]
    exact Bus.Direct.sample_of_degenerate degenerate v
  exact ⟨silent, score_of_silent silent⟩

/-- A bias below all lines does not help a top line without a number, nor does a distance below
all others. -/
theorem degenerate_is_silent_0x7FF :
    let nan := Float32.ofBits 0x7FC00000
    let far : Params := ⟨0.5, 1.5, 1.0, .ofBits 0xFF800000, 0.25⟩
    let top : Params := ⟨-1.0, 0.75, nan, 0.25, 0.5⟩
    let spoilt : Params := ⟨0.9161022, 1.879311, nan, 0.02331964, nan⟩
    let sound : Params := ⟨0.9161022, 1.879311, 0.0, 0.02331964, 0.0⟩
    let table := Table.ofFn fun _ => 0xFF
    (far.Degenerate .pulseSaw ∧ top.Degenerate .sawTriangle ∧
      sound.Agree .pulseTriangle spoilt) ∧
    (Bus.make .pulseSaw far).sample 0x7FF = 0x00 ∧ score .pulseSaw far table = table.countOnes ∧
    (Bus.make .sawTriangle top).sample 0x7FF = 0x00 ∧
    (Bus.make .pulseTriangle spoilt).sample = (Bus.make .pulseTriangle sound).sample := by
  intro nan far top spoilt sound table
  have infinite : far.Degenerate .pulseSaw := .far (by decide)
  have used : .topBit ∉ Wave.sawTriangle.unused := by decide
  have none : top.Degenerate .sawTriangle := .nan used (by decide)
  have agree : sound.Agree .pulseTriangle spoilt := by
    intro field used
    cases field with
    | bias | pulseStrength | distance => rfl
    | topBit | stMix => exact absurd (by decide) used
  obtain ⟨silent, ones⟩ := (degenerate_is_silent .pulseSaw far).1 infinite
  have silent' := ((degenerate_is_silent .sawTriangle top).1 none).1
  have same := (degenerate_is_silent .pulseTriangle sound).2 spoilt agree
  exact ⟨⟨infinite, none, agree⟩, silent 0x7FF, ones table, silent' 0x7FF, same⟩

end WaveBus
