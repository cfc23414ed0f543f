import Mathlib.Data.Fintype.Pi
import Mathlib.Tactic.Ring
import WaveBus.Bus

/-! # The bus without shortcuts

The written model of the bus, step by step: every step makes new lines from the
old ones, and every weight is worked out where it is needed. Lines are functions
of their number, so no step can overwrite what another one still reads.

The bus that is run replaces its lines in place, from the upper end down, and looks
its weights up by distance. It has the same samples.
-/

namespace WaveBus.Bus.Direct

/-- New lines: each takes the level below it, turned over in the upper half of the ramp. -/
def fold (old : Nat → Float32) (upper : Bool) : Nat → Float32
  | 0 => 0.0
  | i + 1 => if upper then 1.0 - old i else old i

/-- New lines: each is a blend of the old level below it and its own old level. -/
def blend (old : Nat → Float32) (share : Float32) : Nat → Float32
  | 0 => old 0 * share
  | i + 1 => old i * (1.0 - share) + old (i + 1) * share

/-- Bit `i` of the low 12 bits, as a level. -/
def bit (accumulator : UInt16) (i : Nat) : Float32 :=
  if (accumulator.toNat % 4096).testBit i then 1.0 else 0.0

/-- The bits, with the highest one at the strength of its own. -/
def scaled (params : Params) (accumulator : UInt16) (i : Nat) : Float32 :=
  if i = 11 then bit accumulator 11 * params.topBit else bit accumulator i

/-- The lines as the wave drives them. -/
def drive (wave : Wave) (params : Params) (accumulator : UInt16) : Nat → Float32 :=
  let levels := scaled params accumulator
  let folded :=
    if wave.code &&& 3 = 1 then fold levels (accumulator.toNat.testBit 11) else levels
  if wave.code &&& 3 = 3 then blend folded params.stMix else folded

/-- A whole number as a single. -/
def whole (n : Int) : Float32 := .ofModel (.ofInt n)

/-- The pull of position `c` on line `s`. -/
def weight (distance : Float32) (s c : Nat) : Float32 :=
  1.0 / (1.0 + whole ((s - c : Int) ^ 2) * distance)

/-- What line `s` sees, in order: level and weight of every line, and the pulse in position 12. -/
def inputs (wave : Wave) (params : Params) (old : Nat → Float32) (s : Nat) :
    List (Float32 × Float32) :=
  (List.range 12).map (fun c => (old c, weight params.distance s c)) ++
    if wave.code > 4 then [(params.pulseStrength, weight params.distance s 12)] else []

def average (seen : List (Float32 × Float32)) : Float32 :=
  seen.foldl (fun sum (level, weight) => sum + level * weight) 0.0 /
    seen.foldl (fun sum (_, weight) => sum + weight) 0.0

/-- The level of line `s` after mixing. -/
def mix (wave : Wave) (params : Params) (old : Nat → Float32) (s : Nat) : Float32 :=
  (old s + average (inputs wave params old s)) * 0.5

/-- The byte with given bits. -/
def byte (bit : Fin 8 → Bool) : UInt8 :=
  .ofNat ((List.finRange 8).map fun k => if bit k then 2 ^ k.val else 0).sum

/-- Bit `k` is set if line `k + 4` is above the bias. -/
def sample (wave : Wave) (params : Params) (accumulator : UInt16) : UInt8 :=
  let mixed := mix wave params (drive wave params accumulator)
  byte fun k => params.bias < mixed (k + 4)

@[simp] theorem wave_make (wave : Wave) (params : Params) : (Bus.make wave params).wave = wave := rfl

@[simp] theorem params_make (wave : Wave) (params : Params) :
    (Bus.make wave params).params = params := rfl

theorem pulses_make (wave : Wave) (params : Params) :
    (Bus.make wave params).wave.pulses = true ↔ wave.code > 4 :=
  decide_eq_true_iff

/-- Lines in a vector that have given levels. -/
def Holds (lines : Lines) (levels : Nat → Float32) : Prop :=
  ∀ (i : Nat) (h : i < 12), lines[i] = levels i

/-- Going down, a line is replaced before the one below it: both operands are still old. -/
theorem getElem_raise (level : Float32 → Float32 → Float32) (lines : Lines) (n : Nat)
    (hn : n < 12) (i : Nat) (hi : i < 12) :
    (lines.raise level n hn)[i] =
      if 0 < i ∧ i ≤ n then level lines[i - 1] lines[i] else lines[i] := by
  induction n generalizing lines with
  | zero =>
      rw [if_neg (by omega)]
      rfl
  | succ n ih =>
      rw [Lines.raise, ih]
      simp only [Vector.getElem_set]
      by_cases top : i = n + 1
      · subst top
        rw [if_neg (by omega), if_pos rfl, if_pos (by omega)]
        rfl
      · have above : ¬ n + 1 = i := fun e => top e.symm
        rw [if_neg above]
        by_cases inside : 0 < i ∧ i ≤ n
        · have lower : ¬ n + 1 = i - 1 := by omega
          rw [if_pos inside, if_neg lower, if_pos (by omega)]
        · rw [if_neg inside, if_neg (by omega)]

theorem holds_fold {lines : Lines} {old : Nat → Float32} (h : Holds lines old) (upper : Bool) :
    Holds (lines.fold upper) (fold old upper) := by
  intro i hi
  rw [Lines.fold, Vector.getElem_set]
  cases i with
  | zero => rfl
  | succ i =>
      rw [if_neg (by omega), getElem_raise, if_pos (by omega)]
      simp only [Nat.add_sub_cancel, h i (by omega)]
      rfl

theorem holds_blend {lines : Lines} {old : Nat → Float32} (h : Holds lines old)
    (share : Float32) : Holds (lines.blend share) (blend old share) := by
  intro i hi
  rw [Lines.blend, Vector.getElem_set]
  cases i with
  | zero =>
      rw [if_pos rfl, getElem_raise, if_neg (by omega), h 0 (by omega)]
      rfl
  | succ i =>
      rw [if_neg (by omega), getElem_raise, if_pos (by omega)]
      simp only [Nat.add_sub_cancel, h i (by omega), h (i + 1) hi]
      rfl

theorem holds_ofAccumulator (accumulator : UInt16) :
    Holds (Lines.ofAccumulator accumulator) (bit accumulator) := by
  intro i hi
  have low : (accumulator.toNat % 2 ^ 12).testBit i = accumulator.toNat.testBit i := by
    rw [Nat.testBit_mod_two_pow, decide_eq_true hi, Bool.true_and]
  rw [Lines.ofAccumulator, Vector.getElem_ofFn, bit, show 4096 = 2 ^ 12 from rfl, low]

theorem holds_drive (wave : Wave) (params : Params) (accumulator : UInt16) :
    Holds ((Bus.make wave params).drive accumulator) (drive wave params accumulator) := by
  have bits := holds_ofAccumulator accumulator
  have scaled : Holds ((Lines.ofAccumulator accumulator).set Lines.top
      ((Lines.ofAccumulator accumulator)[Lines.top] * params.topBit))
      (scaled params accumulator) := by
    intro i hi
    have number : (Lines.top : Nat) = 11 := rfl
    rw [Vector.getElem_set, Fin.getElem_fin, bits Lines.top Lines.top.isLt, bits i hi, number]
    by_cases top : i = 11
    · rw [if_pos top.symm, Direct.scaled, if_pos top]
    · rw [if_neg (Ne.symm top), Direct.scaled, if_neg top]
  simp only [Bus.drive, drive, wave_make, params_make, Wave.folds, Wave.blends, beq_iff_eq]
  by_cases folds : wave.code &&& 3 = 1
  · have blends : ¬ wave.code &&& 3 = 3 := by omega
    rw [if_pos folds, if_neg blends, if_pos folds]
    exact holds_fold scaled _
  · rw [if_neg folds, if_neg folds]
    by_cases blends : wave.code &&& 3 = 3
    · rw [if_pos blends, if_pos blends]
      exact holds_blend scaled _
    · rw [if_neg blends, if_neg blends]
      exact scaled

theorem toFloat32_eq_whole {n : Nat} (h : n < 2 ^ 64) : n.toUInt64.toFloat32 = whole n := by
  have same : n.toUInt64.toNat = n := by
    rw [Nat.toUInt64, UInt64.toNat_ofNat', Nat.mod_eq_of_lt h]
  calc
    n.toUInt64.toFloat32 = whole n.toUInt64.toNat := rfl
    _ = whole n := by rw [same]

/-- A weight depends on how far a position is, not on which side of the line it lies. -/
theorem weight_eq {distance : Float32} {s c k : Nat} (hk : k < 13)
    (apart : (k : Int) = s - c ∨ (k : Int) = c - s) :
    Bus.weight distance k = weight distance s c := by
  have square : ((s : Int) - c) ^ 2 = (k * k : Nat) := by
    rcases apart with e | e <;> push_cast <;> rw [e] <;> ring
  have small : k * k < 2 ^ 64 := by
    have := Nat.mul_lt_mul_of_lt_of_lt hk hk
    omega
  rw [weight, square, Bus.weight, toFloat32_eq_whole small]

theorem weights_gap (wave : Wave) (params : Params) (s c : Fin 12) :
    (Bus.make wave params).weights.get (gap s c) = weight params.distance s c := by
  show (Bus.make wave params).weights[gap s c] = _
  rw [Bus.make, Fin.getElem_fin, Vector.getElem_ofFn]
  exact weight_eq (gap s c).isLt (by simp only [gap]; omega)

theorem weights_pulseGap (wave : Wave) (params : Params) (s : Fin 12) :
    (Bus.make wave params).weights.get (pulseGap s) = weight params.distance s 12 := by
  show (Bus.make wave params).weights[pulseGap s] = _
  rw [Bus.make, Fin.getElem_fin, Vector.getElem_ofFn]
  exact weight_eq (pulseGap s).isLt (by simp only [pulseGap]; omega)

/-- A loop over the lines is a loop over their numbers. -/
theorem foldl_lines {α : Type} (f : α → Nat → α) (start : α) :
    Fin.foldl 12 (fun sum i => f sum i) start = (List.range 12).foldl f start := by
  rw [Fin.foldl_eq_finRange_foldl, ← List.map_coe_finRange_eq_range, List.foldl_map]

theorem totalPull_eq (wave : Wave) (params : Params) {lines : Lines} {old : Nat → Float32}
    (h : Holds lines old) (s : Fin 12) :
    (Bus.make wave params).totalPull lines s =
      (inputs wave params old s).foldl (fun sum (level, weight) => sum + level * weight) 0.0 := by
  have own : Fin.foldl 12 (fun sum c =>
        sum + lines[c] * (Bus.make wave params).weights[gap s c]) (0.0 : Float32) =
      (List.range 12).foldl (fun sum c => sum + old c * weight params.distance s c) 0.0 := by
    have levels : ∀ c : Fin 12, lines[c] = old c := fun c => h c c.isLt
    have weights : ∀ c, (Bus.make wave params).weights[gap s c] = weight params.distance s c :=
      weights_gap wave params s
    rw [← foldl_lines]
    simp only [weights, levels]
  have pulse : (Bus.make wave params).weights[pulseGap s] = weight params.distance s 12 :=
    weights_pulseGap wave params s
  simp only [totalPull, own, pulse, params_make, inputs, List.foldl_append,
    List.foldl_map]
  by_cases pulses : wave.code > 4
  · rw [if_pos ((pulses_make wave params).2 pulses), if_pos pulses, List.foldl_cons,
      List.foldl_nil]
  · rw [if_neg (mt (pulses_make wave params).1 pulses), if_neg pulses, List.foldl_nil]

theorem totalWeight_eq (wave : Wave) (params : Params) (old : Nat → Float32) (s : Fin 12) :
    (Bus.make wave params).totalWeight s =
      (inputs wave params old s).foldl (fun sum (_, weight) => sum + weight) 0.0 := by
  have own : Fin.foldl 12 (fun sum c =>
        sum + (Bus.make wave params).weights[gap s c]) (0.0 : Float32) =
      (List.range 12).foldl (fun sum c => sum + weight params.distance s c) 0.0 := by
    have weights : ∀ c, (Bus.make wave params).weights[gap s c] = weight params.distance s c :=
      weights_gap wave params s
    rw [← foldl_lines]
    simp only [weights]
  have pulse : (Bus.make wave params).weights[pulseGap s] = weight params.distance s 12 :=
    weights_pulseGap wave params s
  simp only [totalWeight, own, pulse, inputs, List.foldl_append, List.foldl_map]
  by_cases pulses : wave.code > 4
  · rw [if_pos ((pulses_make wave params).2 pulses), if_pos pulses, List.foldl_cons,
      List.foldl_nil]
  · rw [if_neg (mt (pulses_make wave params).1 pulses), if_neg pulses, List.foldl_nil]

theorem settle_eq_mix (wave : Wave) (params : Params) {lines : Lines} {old : Nat → Float32}
    (h : Holds lines old) (s : Fin 12) :
    (Bus.make wave params).settle lines s = mix wave params old s := by
  rw [settle, totalPull_eq wave params h, totalWeight_eq wave params old, mix, average,
    Fin.getElem_fin, h s s.isLt]

/-- Setting the bits one after the other makes the byte of these bits. -/
theorem quantize_eq (bias : Float32) (level : Fin 12 → Float32) :
    quantize bias level = byte fun k => bias < level (outputLine k) := by
  have bytes : ∀ bit : Fin 8 → Bool,
      Fin.foldl 8 (fun byte k => if bit k = true then byte ||| 1 <<< UInt8.ofNat k else byte)
        (0 : UInt8) = byte bit := by
    decide +kernel
  rw [← bytes]
  simp only [quantize, decide_eq_true_eq]

theorem testBit_byte (bit : Fin 8 → Bool) (k : Fin 8) : (byte bit).toNat.testBit k = bit k := by
  revert bit k
  decide +kernel

theorem testBit_byte_of_le (bit : Fin 8 → Bool) {k : Nat} (high : 8 ≤ k) :
    (byte bit).toNat.testBit k = false :=
  Nat.testBit_lt_two_pow
    (Nat.lt_of_lt_of_le (UInt8.toNat_lt _) (Nat.pow_le_pow_right Nat.two_pos high))

theorem sample_make (wave : Wave) (params : Params) (accumulator : UInt16) :
    (Bus.make wave params).sample accumulator = sample wave params accumulator := by
  have settled := settle_eq_mix wave params (holds_drive wave params accumulator)
  rw [Bus.sample, quantize_eq, sample]
  congr 1
  funext k
  have line : (outputLine k : Nat) = k + 4 := Nat.add_comm 4 k
  rw [settled, line, params_make]

end WaveBus.Bus.Direct
