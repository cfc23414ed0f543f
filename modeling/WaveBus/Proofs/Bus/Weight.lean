import WaveBus.Proofs.Bus.Direct
import WaveBus.Proofs.Single.Sum

/-! # The weights of the lines

With a distance that is finite and not negative, the pull of a line is one at home and falls
as the line is farther away, down to zero where the square of its distance overflows.
-/

namespace WaveBus.Bus

open Single (InUnit Rounds)

variable {distance : Float32} {j k : ℕ}

theorem value_whole (few : k < Single.manyTerms) : Single.value (Direct.whole k) = k :=
  (Single.exact_ofInt few).2

theorem isFinite_whole (few : k < Single.manyTerms) : (Direct.whole k).isFinite = true :=
  (Single.exact_ofInt few).1

/-- What the weight `k` lines away is the reciprocal of. -/
def falloff (distance : Float32) (k : ℕ) : Float32 := 1.0 + Direct.whole (k * k : ℕ) * distance

theorem weight_eq_falloff (hk : k ≤ 12) : weight distance k = 1.0 / falloff distance k := by
  have small : k * k < 2 ^ 64 := (Nat.mul_le_mul hk hk).trans_lt (by decide)
  rw [weight, Direct.toFloat32_eq_whole small, falloff]

theorem few_squares (hk : k ≤ 12) : k * k < Single.manyTerms :=
  (Nat.mul_le_mul hk hk).trans_lt (by decide)

/-- A distance that is finite and not negative. -/
structure Reach (distance : Float32) : Prop where
  finite : distance.isFinite = true
  nonneg : 0.0 ≤ distance

namespace Reach

theorem falloff_mono (h : Reach distance) (nearer : j ≤ k) (hk : k ≤ 12) :
    falloff distance j ≤ falloff distance k := by
  have squares : Direct.whole (j * j : ℕ) ≤ Direct.whole (k * k : ℕ) :=
    Single.le_of_rounds (Single.rounds_ofInt _) (Single.rounds_ofInt _)
      (by exact_mod_cast Nat.mul_le_mul nearer nearer)
  have products := Single.mul_le_mul_of_finite (isFinite_whole (few_squares (nearer.trans hk)))
    (isFinite_whole (few_squares hk)) h.finite h.nonneg squares
  exact Single.add_le_add Single.isFinite_one Single.isFinite_one (by decide) products

theorem falloff_zero (h : Reach distance) : falloff distance 0 = 1.0 := by
  have zero : Single.value (Direct.whole (0 : ℕ)) = 0 := by
    rw [value_whole (by decide), Nat.cast_zero]
  have product := Single.rounds_mul (isFinite_whole (k := 0) (by decide)) h.finite
  rw [zero, zero_mul] at product
  have vanishes : Single.value (Direct.whole (0 : ℕ) * distance) = 0 :=
    product.value_eq.trans Rounding.rounded_zero
  have inside : (Direct.whole (0 : ℕ) * distance).isFinite = true := by
    rw [Single.isFinite_iff_value product.isNumber, vanishes, abs_zero]
    exact Rounding.bound_pos _
  have sum := Single.rounds_add Single.isFinite_one inside
  rw [vanishes, add_zero, Single.value_one] at sum
  have one : Single.value (1.0 + Direct.whole (0 : ℕ) * distance) = Single.value 1.0 :=
    sum.value_eq.trans Single.rounds_one.value_eq.symm
  have nonzero : Single.value (1.0 + Direct.whole (0 : ℕ) * distance) ≠ 0 := by
    rw [one, Single.value_one]
    exact one_ne_zero
  rw [falloff, Nat.zero_mul]
  exact Single.eq_of_value_eq sum.isNumber (Single.isNaN_of_isFinite Single.isFinite_one) one
    nonzero

theorem weight_zero (h : Reach distance) : weight distance 0 = 1.0 :=
  calc
    weight distance 0 = 1.0 / falloff distance 0 := weight_eq_falloff (Nat.zero_le 12)
    _ = 1.0 / 1.0 := congrArg (1.0 / ·) h.falloff_zero
    _ = 1.0 := by decide +kernel

/-- Weights fall with the distance and are not negative. -/
theorem weight_anti (h : Reach distance) (nearer : j ≤ k) (hk : k ≤ 12) :
    weight distance k ≤ weight distance j ∧ 0.0 ≤ weight distance k := by
  have least := h.falloff_mono (Nat.zero_le j) (nearer.trans hk)
  rw [h.falloff_zero] at least
  rw [weight_eq_falloff hk, weight_eq_falloff (nearer.trans hk)]
  exact Single.div_le_div_left Single.isFinite_one (by decide)
    (Single.lt_of_lt_of_le (by decide) least) (h.falloff_mono nearer hk)

theorem inUnit_weight (h : Reach distance) (hk : k ≤ 12) : InUnit (weight distance k) := by
  obtain ⟨falls, above⟩ := h.weight_anti (Nat.zero_le k) hk
  rw [h.weight_zero] at falls
  exact ⟨above, falls⟩

end Reach

/-! ## All weights that a line sees -/

namespace Direct

variable {wave : Wave} {params : Params} {old : ℕ → Float32} {s c : ℕ}
  {seen : List (Float32 × Float32)}

/-- The weighted levels, added up. -/
def pull (seen : List (Float32 × Float32)) : Float32 :=
  (seen.map fun p => p.1 * p.2).foldl (· + ·) 0.0

/-- The weights, added up. -/
def total (seen : List (Float32 × Float32)) : Float32 := (seen.map Prod.snd).foldl (· + ·) 0.0

theorem average_eq (seen : List (Float32 × Float32)) : average seen = pull seen / total seen := by
  rw [average, pull, total, List.foldl_map, List.foldl_map]

/-- The weights do not depend on the levels. -/
theorem total_congr {params other : Params} (wave : Wave) (same : params.distance = other.distance)
    (old new : ℕ → Float32) (s : ℕ) :
    total (inputs wave params old s) = total (inputs wave other new s) := by
  rw [total, total, inputs, inputs, List.map_append, List.map_append, List.map_map, List.map_map,
    same]
  split <;> rfl

theorem inUnit_weight (reach : Reach distance) (hs : s ≤ 12) (hc : c ≤ 12) :
    InUnit (weight distance s c) := by
  have apart : ((s - c + (c - s) : ℕ) : ℤ) = s - c ∨ ((s - c + (c - s) : ℕ) : ℤ) = c - s := by
    omega
  rw [← weight_eq (by omega) apart]
  exact reach.inUnit_weight (by omega)

theorem weight_self (reach : Reach distance) (s : ℕ) : weight distance s s = 1.0 := by
  rw [← weight_eq (k := 0) (by decide) (.inl (by omega))]
  exact reach.weight_zero

theorem mem_inputs {p : Float32 × Float32} (mem : p ∈ inputs wave params old s) :
    (∃ c < 12, p = (old c, weight params.distance s c)) ∨
      p = (params.pulseStrength, weight params.distance s 12) := by
  rcases List.mem_append.1 mem with line | pulse
  · obtain ⟨c, hc, rfl⟩ := List.mem_map.1 line
    exact .inl ⟨c, List.mem_range.1 hc, rfl⟩
  · split at pulse
    · exact .inr (List.mem_singleton.1 pulse)
    · cases pulse

theorem home_mem_inputs (reach : Reach params.distance) (hs : s < 12) :
    (old s, 1.0) ∈ inputs wave params old s := by
  refine List.mem_append_left _ (List.mem_map.2 ⟨s, List.mem_range.2 hs, ?_⟩)
  rw [weight_self reach]

theorem length_inputs_le : (inputs wave params old s).length ≤ 13 := by
  rw [inputs, List.length_append, List.length_map, List.length_range]
  split
  · exact le_rfl
  · exact Nat.le_succ 12

/-- Weights from zero to one. One of them is one, and they are not too many to add up. -/
structure Weighed (seen : List (Float32 × Float32)) : Prop where
  inUnit : ∀ p ∈ seen, InUnit p.2
  home : 1.0 ∈ seen.map Prod.snd
  few : seen.length ≤ 13

theorem weighed_inputs (reach : Reach params.distance) (hs : s < 12) :
    Weighed (inputs wave params old s) where
  inUnit := by
    intro p mem
    rcases mem_inputs mem with ⟨c, hc, rfl⟩ | rfl
    · exact inUnit_weight reach hs.le hc.le
    · exact inUnit_weight reach hs.le le_rfl
  home := List.mem_map.2 ⟨_, home_mem_inputs reach hs, rfl⟩
  few := length_inputs_le

namespace Weighed

theorem few_terms (h : Weighed seen) : 0 + seen.length < Single.manyTerms := by
  rw [Nat.zero_add]
  exact h.few.trans_lt (by decide)

theorem terms (h : Weighed seen) : ∀ t ∈ seen.map Prod.snd, InUnit t := by
  intro t ht
  obtain ⟨p, mem, rfl⟩ := List.mem_map.1 ht
  exact h.inUnit p mem

theorem upTo_total (h : Weighed seen) : Single.UpTo seen.length (total seen) := by
  have sum := (Single.UpTo.zero.sum h.terms (by rw [List.length_map]; exact h.few_terms)).1
  rwa [List.length_map, Nat.zero_add] at sum

theorem one_le_total (h : Weighed seen) : 1.0 ≤ total seen :=
  Single.UpTo.zero.mem_le_sum h.terms (by rw [List.length_map]; exact h.few_terms) h.home

theorem isFinite_total (h : Weighed seen) : (total seen).isFinite = true :=
  h.upTo_total.isFinite (h.few.trans_lt (by decide))

theorem total_pos (h : Weighed seen) : 0.0 < total seen :=
  Single.lt_of_lt_of_le (by decide) h.one_le_total

end Weighed

end Direct

end WaveBus.Bus
