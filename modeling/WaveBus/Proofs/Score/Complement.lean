import WaveBus.Proofs.Score.Tally

/-! # Complements

Turning a table over makes every right bit wrong and every wrong bit right. So the scores
against a table and against its complement add up to the number of bits, and every score is at
most that.
-/

namespace WaveBus

namespace Table

variable {table other : Table}

@[simp] theorem bit_complement (table : Table) (place : Place) :
    table.complement.bit place = !table.bit place := by
  obtain ⟨i, k⟩ := place
  simp [bit, complement]

/-- Every bit differs from a table or from its complement, and from one of them only. -/
theorem distance_complement (table other : Table) :
    distance table other + distance table other.complement = maxScore := by
  have turned : ∀ place, table.bit place ≠ other.complement.bit place ↔
      ¬ table.bit place ≠ other.bit place := by
    intro place
    cases here : table.bit place <;> cases there : other.bit place <;> simp [there]
  simp only [distance, hammingDist, turned]
  rw [Finset.card_filter_add_card_filter_not]
  simp [maxScore]

end Table

/-- The scores against a table and its complement share the bits among them, and no sum of a
tally is too large for a word. -/
theorem score_complement (wave : Wave) (params : Params) (table : Table) :
    score wave params table + score wave params table.complement = maxScore ∧
    score wave params table ≤ maxScore ∧
    (∀ tally : Tally, tally.Complete →
      (tally.sum? (wrongBits wave params table)).map UInt32.toNat =
        some (score wave params table)) ∧
    table.complement.complement = table ∧
    ∀ accumulator,
      (table.complement.get accumulator).toNat = 255 - (table.get accumulator).toNat := by
  have both := Table.distance_complement (render wave params) table
  simp only [← score_eq_distance] at both
  refine ⟨both, by omega, ?_, Table.complement_complement table, ?_⟩
  · intro tally complete
    exact Tally.sum?_of_complete complete wave params table
  · intro accumulator
    simp

end WaveBus
