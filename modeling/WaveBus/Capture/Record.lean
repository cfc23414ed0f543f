import WaveBus.Text.Blank

/-! # Records of comma-separated text

A record is a row of cells with commas between them, and a carriage return or a
line feed ends it; empty lines stand for nothing. A cell that begins with a quote
is literal up to the closing quote, with two quotes for one; what follows the
closing quote is added as it stands. Blanks around a cell do not belong to it.

A record carries the line on which its reading began. Line ends in front of a
record are passed over only after that, so behind empty lines, and where a line
feed follows a carriage return, the number is smaller than that of the line on
which the record stands.
-/

namespace WaveBus.Capture

/-- A row of cells. -/
structure Record where
  /-- One more than the line feeds read before this record. -/
  line : Nat
  cells : List (List Char)
  deriving Repr, DecidableEq

/-- Where a reader stands. -/
inductive Mode where
  /-- Before the first character of a record. -/
  | outside
  /-- Behind a comma. -/
  | cellStart
  /-- In a cell, outside quotes. -/
  | plain
  /-- Between quotes. -/
  | quoted
  /-- Behind a quote that closes, unless another one follows. -/
  | quoteSeen
  deriving Repr, DecidableEq

/-- What a reader has collected. Lists have the latest first. -/
structure Reader where
  mode : Mode := .outside
  /-- Line feeds read so far. -/
  feeds : Nat := 0
  /-- The line of the current record. -/
  line : Nat := 1
  cell : List Char := []
  cells : List (List Char) := []
  records : List Record := []
  deriving Repr

def isLineEnd (c : Char) : Bool := c == '\n' || c == '\r'

namespace Reader

def push (r : Reader) (mode : Mode) (c : Char) : Reader :=
  { r with mode := mode, cell := c :: r.cell }

def endCell (r : Reader) : Reader :=
  { r with mode := .cellStart, cell := [], cells := Text.trim r.cell.reverse :: r.cells }

/-- Closes the current record. The next one is read from here. -/
def endRecord (r : Reader) : Reader :=
  let r := r.endCell
  { r with
    mode := .outside
    line := r.feeds + 1
    cells := []
    records := ⟨r.line, r.cells.reverse⟩ :: r.records }

def plainStep (r : Reader) (c : Char) : Reader :=
  if c == ',' then r.endCell
  else if isLineEnd c then r.endRecord
  else r.push .plain c

def startStep (r : Reader) (c : Char) : Reader :=
  if c == '"' then { r with mode := .quoted } else r.plainStep c

def count (r : Reader) (c : Char) : Reader :=
  if c == '\n' then { r with feeds := r.feeds + 1 } else r

def step (r : Reader) (c : Char) : Reader :=
  let r := r.count c
  match r.mode with
  | .outside => if isLineEnd c then r else r.startStep c
  | .cellStart => r.startStep c
  | .plain => r.plainStep c
  | .quoted => if c == '"' then { r with mode := .quoteSeen } else r.push .quoted c
  | .quoteSeen => if c == '"' then r.push .quoted c else r.plainStep c

/-- The records at the end of the text, which closes a record that is open. -/
def finish (r : Reader) : List Record :=
  match r.mode with
  | .outside => r.records.reverse
  | _ => r.endRecord.records.reverse

end Reader

def records (text : List Char) : List Record :=
  (text.foldl Reader.step {}).finish

end WaveBus.Capture
