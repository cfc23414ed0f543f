import WaveBus.Bus
import WaveBus.Table

/-! # Scores

The score of a parameter set is the number of bits in which its predictions
differ from a table. Zero is a perfect fit, and every bit wrong the worst.
-/

namespace WaveBus

/-- In how many bits two samples differ. -/
def bitErrors (a b : UInt8) : Nat :=
  (List.finRange 8).countP fun k => a.toBitVec[k] != b.toBitVec[k]

theorem bitErrors_comm (a b : UInt8) : bitErrors a b = bitErrors b a := by
  simp only [bitErrors, bne_comm]

/-- The score with every bit wrong. -/
def maxScore : Nat := tableSize * 8

/-- The sample that a parameter set predicts. -/
def predict (wave : Wave) (params : Params) (accumulator : UInt16) : UInt8 :=
  (Bus.make wave params).sample accumulator

def render (wave : Wave) (params : Params) : Table :=
  let bus := Bus.make wave params
  Table.ofFn bus.sample

/-- How many bits of a table a parameter set gets wrong. -/
def score (wave : Wave) (params : Params) (table : Table) : Nat :=
  let bus := Bus.make wave params
  Fin.foldl tableSize (fun sum i =>
    let accumulator := UInt16.ofNat i
    sum + bitErrors (bus.sample accumulator) (table.get accumulator)) 0

/-- One line of a comparison. -/
structure Row where
  index : UInt16
  reference : UInt8
  predicted : UInt8
  deriving Repr, DecidableEq

def Row.errors (row : Row) : Nat := bitErrors row.reference row.predicted

/-- Reference and prediction side by side, by rising accumulator. -/
structure Report where
  rows : Vector Row tableSize

namespace Report

def make (wave : Wave) (params : Params) (table : Table) : Report :=
  let bus := Bus.make wave params
  ⟨Vector.ofFn fun i =>
    let accumulator := UInt16.ofNat i
    ⟨accumulator, table.get accumulator, bus.sample accumulator⟩⟩

/-- The errors of all rows. -/
def score (report : Report) : Nat :=
  report.rows.foldl (fun sum row => sum + row.errors) 0

/-- How many rows have a given number of wrong bits. -/
def count (report : Report) (errors : Nat) : Nat :=
  report.rows.toList.countP (·.errors == errors)

/-- The rows by wrong bits, none to all eight. -/
def histogram (report : Report) : List Nat :=
  (List.range 9).map report.count

end Report

end WaveBus
