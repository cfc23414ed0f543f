import WaveBus.Capture.Record
import WaveBus.Chip
import WaveBus.Numeral
import WaveBus.Table

/-! # Captures

A capture is a text of 4096 records, one for each value of the accumulator, in
which every sampled chip has its column. All records have the width of the first
one. Cells of other columns may hold anything.
-/

namespace WaveBus.Capture

/-- The character that may stand in front of a text to mark its encoding. -/
def byteOrderMark : Char := '\uFEFF'

def dropMark : List Char → List Char
  | c :: rest => if c == byteOrderMark then rest else c :: rest
  | [] => []

/-- The sample of a chip in a record that should have `width` cells. -/
def sampleOf (chip : Chip) (width : Nat) (record : Record) : Except Fault UInt8 :=
  if record.cells.length = width then
    match record.cells[chip.column.val]? with
    | none => .error (.invalidChip chip.letter)
    | some cell =>
        match Numeral.readByte? cell with
        | some sample => .ok sample
        | none => .error (.malformed record.line (.notByte (String.ofList cell)))
  else
    .error (.malformed record.line (.recordWidth width record.cells.length))

/-- How many cells every record should have. -/
def width : List Record → Nat
  | [] => 0
  | first :: _ => first.cells.length

/-- The samples of a chip. The first bad record decides the fault; the number of
    records is looked at last. -/
def column (chip : Chip) (records : List Record) : Except Fault Table := do
  let samples ← records.mapM (sampleOf chip (width records))
  if samples.length = tableSize then
    Table.ofSamples samples.toArray
  else
    throw (.malformed samples.length (.recordCount tableSize samples.length))

def read (chip : Chip) (text : List Char) : Except Fault Table :=
  column chip (records (dropMark text))

end WaveBus.Capture
