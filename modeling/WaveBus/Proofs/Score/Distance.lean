import Mathlib.Algebra.BigOperators.Fin
import Mathlib.Data.Fintype.BigOperators
import Mathlib.InformationTheory.Hamming
import WaveBus.Score

/-! # The distance of tables

A table is a word of 32768 bits, and two tables are as far apart as there are bits
in which they differ. A score is the distance of two tables, the predicted one and
the one it is held against. So a score is zero only for equal tables, it does not
matter which of the two was predicted, and changing a table changes no score by
more bits than were changed.
-/

namespace WaveBus

namespace Table

/-- A sample and a bit of it. -/
abbrev Place := Fin tableSize × Fin 8

def bit (table : Table) (place : Place) : Bool :=
  table.samples[place.1].toBitVec[place.2]

theorem bit_eq_testBit (table : Table) (place : Place) :
    table.bit place = table.samples[place.1].toNat.testBit place.2 :=
  BitVec.getElem_eq_testBit_toNat _ _ place.2.isLt

/-- In how many bits two tables differ. -/
def distance (table other : Table) : Nat := hammingDist table.bit other.bit

theorem samples_eq_of_bit_eq {table other : Table} (h : table.bit = other.bit)
    (i : Fin tableSize) : table.samples[i] = other.samples[i] := by
  apply UInt8.toBitVec_inj.1
  apply BitVec.eq_of_getElem_eq
  intro k hk
  exact congrFun h (i, ⟨k, hk⟩)

theorem bit_eq_of_samples_eq {table other : Table}
    (h : ∀ i : Fin tableSize, table.samples[i] = other.samples[i]) : table.bit = other.bit := by
  funext place
  simp only [bit, h place.1]

/-- The distance of tables is zero only if every sample is the same. -/
theorem distance_eq_zero {table other : Table} :
    distance table other = 0 ↔ ∀ i : Fin tableSize, table.samples[i] = other.samples[i] := by
  rw [distance, hammingDist_eq_zero]
  exact ⟨samples_eq_of_bit_eq, bit_eq_of_samples_eq⟩

theorem distance_comm (table other : Table) : distance table other = distance other table :=
  hammingDist_comm _ _

theorem distance_triangle (table other third : Table) :
    distance table third ≤ distance table other + distance other third :=
  hammingDist_triangle _ _ _

end Table

theorem bitErrors_eq_hammingDist (a b : UInt8) :
    bitErrors a b = hammingDist a.toBitVec.getLsb b.toBitVec.getLsb := by
  rw [hammingDist, ← List.toFinset_finRange, (List.nodup_finRange 8).card_eq_countP, bitErrors]
  simp only [bne, ne_eq, decide_not, beq_eq_decide]
  rfl

/-- The distance counts the wrong bits sample by sample. -/
theorem Table.distance_eq_sum (table other : Table) :
    distance table other = ∑ i : Fin tableSize, bitErrors table.samples[i] other.samples[i] := by
  rw [distance, hammingDist, Finset.card_filter, Fintype.sum_prod_type]
  refine Finset.sum_congr rfl fun i _ => ?_
  rw [bitErrors_eq_hammingDist, hammingDist, Finset.card_filter]
  exact Finset.sum_congr rfl fun k _ => if_congr Iff.rfl rfl rfl

@[simp] theorem Table.get_ofNat (table : Table) (i : Fin tableSize) :
    table.get (UInt16.ofNat i) = table.samples[i] := by
  have small : (i : Nat) < 4096 := i.isLt
  have number : Table.index (UInt16.ofNat i) = i := by
    apply Fin.ext
    show (UInt16.ofNat i).toNat % 4096 = i
    rw [UInt16.toNat_ofNat']
    omega
  simp only [Table.get, number]

theorem samples_render (wave : Wave) (params : Params) (i : Fin tableSize) :
    (render wave params).samples[i] = (Bus.make wave params).sample (UInt16.ofNat i) := by
  rw [render, Table.ofFn, Fin.getElem_fin, Vector.getElem_ofFn]

/-- How many bits of one sample a parameter set gets wrong. -/
def wrongBits (wave : Wave) (params : Params) (table : Table) (i : Fin tableSize) : ℕ :=
  bitErrors (predict wave params (.ofNat i)) (table.get (.ofNat i))

theorem score_eq_sum (wave : Wave) (params : Params) (table : Table) :
    score wave params table = ∑ i, wrongBits wave params table i := by
  rw [Fin.sum_univ_def, List.sum_eq_foldl, List.foldl_map, score, Fin.foldl_eq_finRange_foldl]
  rfl

/-- The score of parameters is the distance of the table that they predict. -/
theorem score_eq_distance (wave : Wave) (params : Params) (table : Table) :
    score wave params table = Table.distance (render wave params) table := by
  simp only [score_eq_sum, Table.distance_eq_sum, wrongBits, predict, Table.get_ofNat,
    samples_render]

/-- The score is the metric of tables: zero just for the predicted table, the same
    whichever of two tables is predicted, and changed by no more bits than the table is. -/
theorem score_is_metric (wave other : Wave) (params seed : Params) (table changed : Table) :
    (score wave params table = 0 ↔
      ∀ i : Fin tableSize, table.samples[i] = (render wave params).samples[i]) ∧
    score wave params (render other seed) = score other seed (render wave params) ∧
    |(score wave params table : ℤ) - score wave params changed| ≤ Table.distance table changed := by
  simp only [score_eq_distance]
  refine ⟨?_, Table.distance_comm _ _, ?_⟩
  · rw [Table.distance_comm, Table.distance_eq_zero]
  · have there := Table.distance_triangle (render wave params) table changed
    have back := Table.distance_triangle (render wave params) changed table
    rw [Table.distance_comm changed table] at back
    rw [abs_le]
    omega

end WaveBus
