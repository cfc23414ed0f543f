import WaveBus.Proofs.Bus.Alike
import WaveBus.Proofs.Score.Tally

/-! # The ways to a score

A score can be added up by several workers, row by row in a report, by classes of rows with the
same number of wrong bits, or from the table that the parameters predict. Each way goes through
every accumulator once, so all come to the same number. A predicted table is looked up by the
lower twelve bits of an accumulator, which are all that the bus reads.
-/

namespace WaveBus

namespace Report

variable {wave : Wave} {params : Params} {table : Table}

/-- The row of an accumulator. -/
def rowAt (wave : Wave) (params : Params) (table : Table) (i : Fin tableSize) : Row :=
  ⟨.ofNat i, table.get (.ofNat i), predict wave params (.ofNat i)⟩

theorem rows_make (wave : Wave) (params : Params) (table : Table) :
    (make wave params table).rows.toList =
      (List.finRange tableSize).map (rowAt wave params table) := by
  rw [make, Vector.toList_ofFn, List.ofFn_eq_map]
  rfl

theorem errors_rowAt (i : Fin tableSize) :
    (rowAt wave params table i).errors = wrongBits wave params table i :=
  bitErrors_comm _ _

theorem sum_errors_make (wave : Wave) (params : Params) (table : Table) :
    ((make wave params table).rows.toList.map Row.errors).sum =
      WaveBus.score wave params table := by
  simp only [rows_make, List.map_map, Function.comp_def, errors_rowAt, score_eq_sum,
    Fin.sum_univ_def]

theorem score_make (wave : Wave) (params : Params) (table : Table) :
    (make wave params table).score = WaveBus.score wave params table := by
  rw [← sum_errors_make, List.sum_eq_foldl, List.foldl_map, Vector.foldl_toList, score]

theorem count_make (k : ℕ) :
    (make wave params table).count k =
      (Finset.univ.filter fun i => wrongBits wave params table i = k).card := by
  rw [count, rows_make, List.countP_map, ← List.toFinset_finRange,
    (List.nodup_finRange tableSize).card_eq_countP]
  simp only [Function.comp_def, errors_rowAt, beq_eq_decide]

theorem wrongBits_mem_range (i : Fin tableSize) :
    wrongBits wave params table i ∈ Finset.range 9 :=
  Finset.mem_range.2 (Nat.lt_succ_of_le (bitErrors_le _ _))

/-- Every row is in one of the nine classes. -/
theorem sum_count_make (wave : Wave) (params : Params) (table : Table) :
    ∑ k ∈ Finset.range 9, (make wave params table).count k = tableSize := by
  simp only [count_make]
  rw [← Finset.card_eq_sum_card_fiberwise fun i _ => wrongBits_mem_range i]
  simp

theorem weighted_count_make (wave : Wave) (params : Params) (table : Table) :
    ∑ k ∈ Finset.range 9, k * (make wave params table).count k =
      WaveBus.score wave params table := by
  have classes := Finset.sum_fiberwise_of_maps_to' (M := ℕ)
    (fun i (_ : i ∈ Finset.univ) => @wrongBits_mem_range wave params table i) id
  simpa [count_make, score_eq_sum, mul_comm] using classes

end Report

/-- All ways to a score agree, whatever the shares of a tally are. -/
theorem score_paths_agree (wave : Wave) (params : Params) (table : Table) {tally : Tally}
    (complete : tally.Complete) :
    let report := Report.make wave params table
    (tally.sum? (wrongBits wave params table)).map UInt32.toNat =
      some (score wave params table) ∧
    report.score = score wave params table ∧
    (report.rows.toList.map Row.errors).sum = score wave params table ∧
    ∑ k ∈ Finset.range 9, k * report.count k = score wave params table ∧
    ∑ k ∈ Finset.range 9, report.count k = tableSize ∧
    ∑ i : Fin tableSize, bitErrors (table.samples.get i) ((render wave params).samples.get i) =
      score wave params table ∧
    report.rows.toList = (List.finRange tableSize).map (fun i =>
      ⟨.ofNat i, table.get (.ofNat i), predict wave params (.ofNat i)⟩) ∧
    ∀ accumulator, (render wave params).get accumulator = predict wave params accumulator := by
  intro report
  refine ⟨Tally.sum?_of_complete complete wave params table, Report.score_make wave params table,
    Report.sum_errors_make wave params table, Report.weighted_count_make wave params table,
    Report.sum_count_make wave params table, ?_, Report.rows_make wave params table,
    get_render wave params⟩
  rw [score_eq_distance, Table.distance_comm, Table.distance_eq_sum]
  rfl

/-- The upper half is added up first. -/
theorem score_paths_agree_halves :
    let params : Params := ⟨0.9161022, 1.879311, 0.0, 0.02331964, 0.0⟩
    let table := Table.ofFn fun accumulator => (accumulator >>> 4).toUInt8
    Tally.halves.Complete ∧
    (Tally.halves.sum? (wrongBits .pulseTriangle params table)).map UInt32.toNat =
      some (score .pulseTriangle params table) ∧
    (Report.make .pulseTriangle params table).score = score .pulseTriangle params table := by
  intro params table
  have agree := score_paths_agree .pulseTriangle params table Tally.complete_halves
  exact ⟨Tally.complete_halves, agree.1, agree.2.1⟩

end WaveBus
