import Mathlib.Data.List.FinRange
import WaveBus.Proofs.Bus.Direct

/-! # The bus with checked indices

The bus once more, as loops over plain arrays in which every read and every write
may fail. None does: all loops run through, and to the same sample.
-/

namespace WaveBus.Bus

namespace Checked

/-- Writes an entry that must be there. -/
def replace (levels : Array Float32) (i : Nat) (level : Float32) : Option (Array Float32) :=
  if h : i < levels.size then some (levels.set i level h) else none

/-- The lines `n`, …, 1, written in this order. -/
def raise (level : Float32 → Float32 → Float32) (levels : Array Float32) :
    Nat → Option (Array Float32)
  | 0 => some levels
  | n + 1 => do
      let below ← levels[n]?
      let own ← levels[n + 1]?
      raise level (← replace levels (n + 1) (level below own)) n

def fold (levels : Array Float32) (upper : Bool) : Option (Array Float32) := do
  let raised ← raise (fun below _ => if upper then 1.0 - below else below) levels 11
  replace raised 0 0.0

def blend (levels : Array Float32) (share : Float32) : Option (Array Float32) := do
  let raised ← raise (fun below own => below * (1.0 - share) + own * share) levels 11
  let lowest ← raised[0]?
  replace raised 0 (lowest * share)

def drive (bus : Bus) (accumulator : UInt16) : Option (Array Float32) := do
  let bits := (Lines.ofAccumulator accumulator).toArray
  let top ← bits[11]?
  let levels ← replace bits 11 (top * bus.params.topBit)
  let folded ←
    if bus.wave.folds then fold levels (accumulator.toNat.testBit 11) else some levels
  if bus.wave.blends then blend folded bus.params.stMix else some folded

/-- Adds a line to the pull and the weight so far. -/
def join (bus : Bus) (levels : Array Float32) (s : Nat) (total : Float32 × Float32) (c : Nat) :
    Option (Float32 × Float32) := do
  let weight ← bus.weights.toArray[(s - c) + (c - s)]?
  let level ← levels[c]?
  some (total.1 + level * weight, total.2 + weight)

def joinPulse (bus : Bus) (s : Nat) (total : Float32 × Float32) : Option (Float32 × Float32) := do
  let weight ← bus.weights.toArray[12 - s]?
  some (total.1 + bus.params.pulseStrength * weight, total.2 + weight)

/-- Pull and weight of all lines as line `s` sees them, in one loop. -/
def totals (bus : Bus) (levels : Array Float32) (s : Nat) : Option (Float32 × Float32) := do
  let own ← (List.range 12).foldlM (join bus levels s) (0.0, 0.0)
  if bus.wave.pulses then joinPulse bus s own else some own

/-- Writes the level of line `s` after mixing. -/
def settle (bus : Bus) (levels mixed : Array Float32) (s : Nat) : Option (Array Float32) := do
  let total ← totals bus levels s
  let level ← levels[s]?
  replace mixed s ((level + total.1 / total.2) * 0.5)

/-- Sets bit `k` if the line that feeds it is above the bias. -/
def compare (bias : Float32) (mixed : Array Float32) (byte : UInt8) (k : Nat) : Option UInt8 := do
  let level ← mixed[4 + k]?
  some (if bias < level then byte ||| 1 <<< UInt8.ofNat k else byte)

def sample (bus : Bus) (accumulator : UInt16) : Option UInt8 := do
  let levels ← drive bus accumulator
  let mixed ← (List.range 12).foldlM (settle bus levels) (Vector.replicate 12 0.0).toArray
  (List.range 8).foldlM (compare bus.params.bias mixed) 0

theorem replace_toArray {n : Nat} (levels : Vector Float32 n) (i : Nat) (h : i < n)
    (level : Float32) :
    replace levels.toArray i level = some (levels.set i level).toArray := by
  have inside : i < levels.toArray.size := by
    rw [levels.size_toArray]
    exact h
  rw [replace, dif_pos inside, Vector.toArray_set]

theorem getElem?_toArray {n : Nat} (levels : Vector Float32 n) (i : Nat) (h : i < n) :
    levels.toArray[i]? = some levels[i] := by
  rw [Vector.getElem?_toArray, Vector.getElem?_eq_getElem h]

/-- A loop whose steps all succeed succeeds. Its states may be kept in another form. -/
theorem foldlM_range {n : Nat} {α β : Type} {f : β → Nat → Option β} {g : α → Fin n → α}
    (kept : α → β) (step : ∀ state (i : Fin n), f (kept state) i = some (kept (g state i)))
    (start : α) :
    (List.range n).foldlM f (kept start) = some (kept (Fin.foldl n g start)) := by
  rw [Fin.foldl_eq_finRange_foldl, ← List.map_coe_finRange_eq_range, List.foldlM_map]
  induction List.finRange n generalizing start with
  | nil => rfl
  | cons i rest ih =>
      rw [List.foldlM_cons, step, List.foldl_cons]
      exact ih (g start i)

theorem raise_toArray (level : Float32 → Float32 → Float32) (lines : Lines) (n : Nat)
    (h : n < 12) : raise level lines.toArray n = some (lines.raise level n h).toArray := by
  induction n generalizing lines with
  | zero => rfl
  | succ n ih =>
      rw [raise, getElem?_toArray lines n (by omega), getElem?_toArray lines (n + 1) h]
      simp only [Option.bind_eq_bind, Option.bind_some]
      rw [replace_toArray lines (n + 1) h, Option.bind_some]
      exact ih (lines.set (n + 1) (level lines[n] lines[n + 1])) (by omega)

theorem fold_toArray (lines : Lines) (upper : Bool) :
    fold lines.toArray upper = some (lines.fold upper).toArray := by
  rw [fold, raise_toArray _ lines 11 (by omega), Option.bind_eq_bind, Option.bind_some,
    replace_toArray _ 0 (by omega)]
  rfl

theorem blend_toArray (lines : Lines) (share : Float32) :
    blend lines.toArray share = some (lines.blend share).toArray := by
  rw [blend, raise_toArray _ lines 11 (by omega), Option.bind_eq_bind, Option.bind_some,
    getElem?_toArray _ 0 (by omega), Option.bind_eq_bind, Option.bind_some,
    replace_toArray _ 0 (by omega)]
  rfl

theorem drive_eq (bus : Bus) (accumulator : UInt16) :
    drive bus accumulator = some (bus.drive accumulator).toArray := by
  have exclusive : bus.wave.folds = true → ¬ bus.wave.blends = true := by
    cases bus.wave <;> decide
  rw [drive, Bus.drive]
  simp only [Option.bind_eq_bind]
  rw [getElem?_toArray _ 11 (by omega), Option.bind_some, replace_toArray _ 11 (by omega),
    Option.bind_some]
  by_cases folds : bus.wave.folds = true
  · rw [if_pos folds, if_pos folds, fold_toArray, Option.bind_some, if_neg (exclusive folds)]
    rfl
  · rw [if_neg folds, if_neg folds, Option.bind_some]
    by_cases blends : bus.wave.blends = true
    · rw [if_pos blends, if_pos blends]
      exact blend_toArray _ bus.params.stMix
    · rw [if_neg blends, if_neg blends]
      rfl

/-- Two sums in one loop. -/
theorem foldl_pair {n : Nat} (first second : Fin n → Float32) (start : Float32 × Float32) :
    Fin.foldl n (fun total i => (total.1 + first i, total.2 + second i)) start =
      (Fin.foldl n (fun sum i => sum + first i) start.1,
        Fin.foldl n (fun sum i => sum + second i) start.2) := by
  induction n with
  | zero => rfl
  | succ n ih => rw [Fin.foldl_succ_last, Fin.foldl_succ_last, Fin.foldl_succ_last, ih]

theorem join_eq (bus : Bus) (lines : Lines) (s : Fin 12) (total : Float32 × Float32)
    (c : Fin 12) :
    join bus lines.toArray s total c =
      some (total.1 + lines.get c * bus.weights.get (gap s c),
        total.2 + bus.weights.get (gap s c)) := by
  have weight : bus.weights.toArray[((s : Nat) - c) + (c - s)]? =
      some (bus.weights.get (gap s c)) := getElem?_toArray bus.weights _ (gap s c).isLt
  rw [join, weight, getElem?_toArray lines c c.isLt]
  rfl

theorem joinPulse_eq (bus : Bus) (s : Fin 12) (total : Float32 × Float32) :
    joinPulse bus s total =
      some (total.1 + bus.params.pulseStrength * bus.weights.get (pulseGap s),
        total.2 + bus.weights.get (pulseGap s)) := by
  have weight : bus.weights.toArray[12 - (s : Nat)]? = some (bus.weights.get (pulseGap s)) :=
    getElem?_toArray bus.weights _ (pulseGap s).isLt
  rw [joinPulse, weight]
  rfl

theorem totals_eq (bus : Bus) (lines : Lines) (s : Fin 12) :
    totals bus lines.toArray s = some (bus.totalPull lines s, bus.totalWeight s) := by
  have own := foldlM_range (fun total => total) (join_eq bus lines s) (0.0, 0.0)
  rw [foldl_pair] at own
  rw [totals, own, Option.bind_eq_bind, Option.bind_some, totalPull, totalWeight]
  by_cases pulses : bus.wave.pulses = true
  · rw [if_pos pulses, if_pos pulses, if_pos pulses]
    exact joinPulse_eq bus s _
  · rw [if_neg pulses, if_neg pulses, if_neg pulses]
    rfl

theorem set_eq_setIfInBounds {n : Nat} (levels : Vector Float32 n) {i : Nat} (h : i < n)
    (level : Float32) : levels.set i level h = levels.setIfInBounds i level := by
  apply Vector.ext
  intro j hj
  rw [Vector.getElem_set, Vector.getElem_setIfInBounds]

theorem settle_eq (bus : Bus) (lines mixed : Lines) (s : Fin 12) :
    settle bus lines.toArray mixed.toArray s =
      some (mixed.setIfInBounds s (bus.settle lines s)).toArray := by
  rw [settle, totals_eq, Option.bind_eq_bind, Option.bind_some, getElem?_toArray lines s s.isLt,
    Option.bind_eq_bind, Option.bind_some, replace_toArray mixed s s.isLt,
    set_eq_setIfInBounds mixed s.isLt]
  rfl

theorem getElem_foldl_set {n k : Nat} (h : k ≤ n) (level : Fin n → Float32)
    (start : Vector Float32 n) (i : Nat) (hi : i < n) :
    (Fin.foldl k (fun written s => written.setIfInBounds s (level (s.castLE h))) start)[i] =
      if i < k then level ⟨i, hi⟩ else start[i] := by
  induction k with
  | zero => rfl
  | succ k ih =>
      rw [Fin.foldl_succ_last, Vector.getElem_setIfInBounds, Fin.val_last]
      by_cases last : k = i
      · subst last
        rw [if_pos rfl, if_pos (Nat.lt_succ_self k)]
        rfl
      · rw [if_neg last]
        refine (ih (by omega)).trans ?_
        by_cases written : i < k
        · rw [if_pos written, if_pos (by omega)]
        · rw [if_neg written, if_neg (by omega)]

/-- Lines that are written one by one end up as written. -/
theorem foldl_set (level : Fin 12 → Float32) (start : Lines) :
    Fin.foldl 12 (fun lines s => lines.setIfInBounds s (level s)) start = Vector.ofFn level := by
  apply Vector.ext
  intro i hi
  rw [Vector.getElem_ofFn]
  exact (getElem_foldl_set (Nat.le_refl 12) level start i hi).trans (if_pos hi)

theorem compare_eq (bias : Float32) (level : Fin 12 → Float32) (byte : UInt8) (k : Fin 8) :
    compare bias (Vector.ofFn level).toArray byte k =
      some (if bias < level (outputLine k) then byte ||| 1 <<< UInt8.ofNat k else byte) := by
  have inside : 4 + (k : Nat) < 12 := (outputLine k).isLt
  rw [compare, getElem?_toArray (Vector.ofFn level) (4 + k) inside, Vector.getElem_ofFn]
  rfl

theorem sample_eq (bus : Bus) (accumulator : UInt16) :
    sample bus accumulator = some (bus.sample accumulator) := by
  have mixed := foldlM_range Vector.toArray (settle_eq bus (bus.drive accumulator))
    (Vector.replicate 12 0.0)
  rw [foldl_set] at mixed
  rw [sample, drive_eq, Option.bind_eq_bind, Option.bind_some, mixed]
  exact foldlM_range (fun byte => byte)
    (compare_eq bus.params.bias (bus.settle (bus.drive accumulator))) 0

end Checked

/-- The bus has the samples of the written model, and no index on the way is out of range. -/
theorem sample_refines_direct (wave : Wave) (params : Params) (accumulator : UInt16) :
    (Bus.make wave params).sample accumulator = Direct.sample wave params accumulator ∧
      Checked.sample (Bus.make wave params) accumulator =
        some (Direct.sample wave params accumulator) := by
  have same := Direct.sample_make wave params accumulator
  have checked := Checked.sample_eq (Bus.make wave params) accumulator
  rw [same] at checked
  exact ⟨same, checked⟩

end WaveBus.Bus
