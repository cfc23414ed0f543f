import WaveBus.Proofs.Score.Distance

/-! # Scores added up in shares

The accumulators can be dealt out to several workers. Each adds up the wrong bits of its share,
and the sums are joined two by two until one is left. All sums are 32-bit words. Whatever the
shares and the joins are, no sum on the way is too large for a word, and the last one is the
score.
-/

namespace WaveBus

theorem bitErrors_le (a b : UInt8) : bitErrors a b ≤ 8 :=
  calc
    bitErrors a b ≤ (List.finRange 8).length := List.countP_le_length
    _ = 8 := List.length_finRange

/-- No sample has more wrong bits than bits. -/
theorem score_le_maxScore (wave : Wave) (params : Params) (table : Table) :
    score wave params table ≤ maxScore := by
  have few := Finset.sum_le_card_nsmul Finset.univ (wrongBits wave params table) 8
    fun i _ => bitErrors_le _ _
  simpa [score_eq_sum, maxScore] using few

/-- Two words added, unless the sum is too large for a word. -/
def addWords? (a b : UInt32) : Option UInt32 :=
  if a.toNat + b.toNat < UInt32.size then some (a + b) else none

theorem addWords?_ofNat {m n : ℕ} (h : m + n < UInt32.size) :
    addWords? (.ofNat m) (.ofNat n) = some (.ofNat (m + n)) := by
  have left : (UInt32.ofNat m).toNat = m := UInt32.toNat_ofNat_of_lt (by omega)
  have right : (UInt32.ofNat n).toNat = n := UInt32.toNat_ofNat_of_lt (by omega)
  simp [addWords?, left, right, h]

/-- How the wrong bits of some accumulators are added up. -/
inductive Tally where
  /-- One worker goes through its share in order. -/
  | share (indices : List (Fin tableSize))
  /-- The sums of two tallies are added. -/
  | join (left right : Tally)

namespace Tally

variable {errors : Fin tableSize → ℕ} {tally : Tally}

def indices : Tally → List (Fin tableSize)
  | share indices => indices
  | join left right => left.indices ++ right.indices

/-- Every accumulator is in one share, and once only. -/
def Complete (tally : Tally) : Prop := tally.indices.Perm (List.finRange tableSize)

/-- The sum of a tally in words. None if a sum on the way is too large. -/
def sum? (errors : Fin tableSize → ℕ) : Tally → Option UInt32
  | share indices => indices.foldlM (fun sum i => addWords? sum (.ofNat (errors i))) 0
  | join left right => do addWords? (← left.sum? errors) (← right.sum? errors)

theorem foldlM_addWords? {indices : List (Fin tableSize)} {start : ℕ}
    (h : start + (indices.map errors).sum < UInt32.size) :
    indices.foldlM (fun sum i => addWords? sum (.ofNat (errors i))) (.ofNat start) =
      some (.ofNat (start + (indices.map errors).sum)) := by
  induction indices generalizing start with
  | nil => rfl
  | cons i indices ih =>
      simp only [List.map_cons, List.sum_cons, ← Nat.add_assoc] at h ⊢
      rw [List.foldlM_cons, addWords?_ofNat (by omega)]
      exact ih h

/-- If all that is added fits into a word, so does every sum on the way. -/
theorem sum?_of_small (h : (tally.indices.map errors).sum < UInt32.size) :
    tally.sum? errors = some (.ofNat (tally.indices.map errors).sum) := by
  induction tally with
  | share indices =>
      have small : 0 + (indices.map errors).sum < UInt32.size := by rwa [Nat.zero_add]
      have sum := foldlM_addWords? small
      rw [Nat.zero_add] at sum
      exact sum
  | join left right ihl ihr =>
      simp only [indices, List.map_append, List.sum_append] at h ⊢
      rw [sum?, ihl (by omega), ihr (by omega)]
      exact addWords?_ofNat h

theorem sum_of_complete (complete : tally.Complete) :
    (tally.indices.map errors).sum = ∑ i, errors i := by
  rw [Fin.sum_univ_def]
  exact (complete.map errors).sum_eq

/-- A complete tally ends with the score, and nothing is lost on the way. -/
theorem sum?_of_complete (complete : tally.Complete) (wave : Wave) (params : Params)
    (table : Table) :
    (tally.sum? (wrongBits wave params table)).map UInt32.toNat =
      some (score wave params table) := by
  have total : (tally.indices.map (wrongBits wave params table)).sum = score wave params table := by
    rw [sum_of_complete complete, score_eq_sum]
  have small : score wave params table < UInt32.size :=
    (score_le_maxScore wave params table).trans_lt (by decide)
  rw [sum?_of_small (total ▸ small), total]
  simp [UInt32.toNat_ofNat_of_lt' small]

/-- The upper half of the accumulators goes to the first worker. -/
def halves : Tally :=
  join (share ((List.finRange tableSize).drop 2048)) (share ((List.finRange tableSize).take 2048))

theorem complete_halves : halves.Complete := by
  have swapped : halves.indices.Perm
      ((List.finRange tableSize).take 2048 ++ (List.finRange tableSize).drop 2048) :=
    List.perm_append_comm
  rwa [List.take_append_drop] at swapped

end Tally

end WaveBus
