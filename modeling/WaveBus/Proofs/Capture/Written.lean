import WaveBus.Proofs.Capture.Row
import WaveBus.Proofs.Text.Trim

/-! # Tables as captures

The text of a table has one sample in a line, so it is a capture with the column of
chip A alone. Reading it gives the table back, and every other chip is missing.
-/

namespace WaveBus.Capture

open Text

/-- Whether a character has no meaning to a reader outside quotes, nor is it blank. -/
def isBare (c : Char) : Bool :=
  c != ',' && !isLineEnd c && c != '"' && !isBlank c

theorem bare_iff {c : Char} : isBare c = true ↔ isOrdinary c = true ∧ isBlank c = false := by
  simp [isBare, isOrdinary]

namespace Reader

/-- A reader at the beginning of a line. -/
def atLine (line : Nat) (records : List Record) : Reader :=
  { feeds := line, line := line + 1, records }

theorem foldl_line (line : Nat) (records : List Record) {cell : List Char} (filled : cell ≠ [])
    (bare : ∀ c ∈ cell, isBare c = true) :
    (cell ++ ['\n']).foldl step (atLine line records) =
      atLine (line + 1) (⟨line + 1, [trim cell]⟩ :: records) :=
  foldl_row line (line + 1) records (.last (.bare fun c inside => (bare_iff.1 (bare c inside)).1))
    filled rfl

end Reader

theorem trim_bare {cell : List Char} (bare : ∀ c ∈ cell, isBare c = true) : trim cell = cell :=
  trim_eq_iff.2 (padded_of_visible fun c inside => (bare_iff.1 (bare c inside)).2)

theorem isBare_of_isDigit {c : Char} (digit : c.isDigit = true) : isBare c = true := by
  have bounds : 48 ≤ c.toNat ∧ c.toNat ≤ 57 := by
    simp only [Char.isDigit, Bool.and_eq_true, decide_eq_true_eq] at digit
    exact digit
  have visible : isBlank c = false := isBlank_eq_false (by omega) (by omega)
  have other : ∀ d : Char, d.toNat < 48 → c ≠ d := by
    rintro d small rfl
    omega
  simp [isBare, isLineEnd, visible, other ',' (by decide), other '\n' (by decide),
    other '\r' (by decide), other '"' (by decide)]

def digits (sample : UInt8) : List Char := Nat.toDigits 10 sample.toNat

theorem isDigit_digits (sample : UInt8) : ∀ c ∈ digits sample, c.isDigit = true :=
  fun _ hc => Nat.isDigit_of_mem_toDigits (by decide) (by decide) hc

theorem isBare_digits (sample : UInt8) : ∀ c ∈ digits sample, isBare c = true :=
  fun c hc => isBare_of_isDigit (isDigit_digits sample c hc)

theorem digits_ne_nil (sample : UInt8) : digits sample ≠ [] := Nat.toDigits_ne_nil

theorem readByte?_digits (sample : UInt8) : Numeral.readByte? (digits sample) = some sample := by
  have small : (sample.toNat : Nat) < 256 := sample.toNat_lt
  rw [Numeral.readByte?, Numeral.readBelow?, digits, Numeral.read?_toDigits, Option.filter_some,
    if_pos (decide_eq_true small), Option.map_some, UInt8.ofNat_toNat]

def lone (line : Nat) (sample : UInt8) : Record := ⟨line, [digits sample]⟩

@[simp] theorem cells_lone (line : Nat) (sample : UInt8) :
    (lone line sample).cells = [digits sample] := rfl

def loneFrom (line : Nat) : List UInt8 → List Record
  | [] => []
  | sample :: rest => lone line sample :: loneFrom (line + 1) rest

theorem toList_sampleText (samples : List UInt8) :
    (Table.sampleText samples).toList = samples.flatMap fun sample => digits sample ++ ['\n'] := by
  rw [Table.sampleText, String.toList_join, List.flatMap_map]
  congr 1
  funext sample
  rw [String.toList_append]
  exact congrArg (· ++ ['\n']) (Nat.toList_repr)

theorem foldl_samples (line : Nat) (records : List Record) (samples : List UInt8) :
    ∃ last, (samples.flatMap fun sample => digits sample ++ ['\n']).foldl Reader.step
        (Reader.atLine line records) =
      Reader.atLine last ((loneFrom (line + 1) samples).reverse ++ records) := by
  -- Every line end takes the reader from the beginning of a line to that of the next.
  induction samples generalizing line records with
  | nil => exact ⟨line, rfl⟩
  | cons sample samples ih =>
      obtain ⟨last, rest⟩ := ih (line + 1) (lone (line + 1) sample :: records)
      refine ⟨last, ?_⟩
      rw [List.flatMap_cons, List.foldl_append,
        Reader.foldl_line line records (digits_ne_nil sample) (isBare_digits sample),
        trim_bare (isBare_digits sample)]
      rw [loneFrom, List.reverse_cons, List.append_assoc]
      exact rest

theorem records_sampleText (samples : List UInt8) :
    records (Table.sampleText samples).toList = loneFrom 1 samples := by
  obtain ⟨last, whole⟩ := foldl_samples 0 [] samples
  have start : ({} : Reader) = Reader.atLine 0 [] := rfl
  rw [records, toList_sampleText, start, whole, List.append_nil]
  exact List.reverse_reverse _

/-- No mark stands in front of a digit. -/
theorem dropMark_sampleText (samples : List UInt8) :
    dropMark (Table.sampleText samples).toList = (Table.sampleText samples).toList := by
  rw [toList_sampleText]
  cases samples with
  | nil => rfl
  | cons sample samples =>
      obtain ⟨c, rest, e⟩ := List.exists_cons_of_ne_nil (digits_ne_nil sample)
      have digit : c.isDigit = true := isDigit_digits sample c (by rw [e]; exact List.mem_cons_self)
      have unmarked : c ≠ byteOrderMark := by
        rintro rfl
        exact absurd digit (by decide)
      rw [List.flatMap_cons, e, List.cons_append, List.cons_append, dropMark,
        if_neg (by simpa using unmarked)]

theorem sampleOf_lone (line : Nat) (sample : UInt8) :
    sampleOf ⟨0⟩ 1 (lone line sample) = .ok sample := by
  have first : [digits sample][(⟨0⟩ : Chip).column.val]? = some (digits sample) := rfl
  rw [sampleOf, cells_lone, if_pos List.length_singleton, first]
  dsimp only
  rw [readByte?_digits]

theorem mapM_sampleOf_loneFrom (line : Nat) (samples : List UInt8) :
    (loneFrom line samples).mapM (sampleOf ⟨0⟩ 1) = .ok samples := by
  induction samples generalizing line with
  | nil => rfl
  | cons sample samples ih =>
      rw [loneFrom, List.mapM_cons, sampleOf_lone, ih (line + 1)]
      rfl

/-- A record of one cell has no sample of a chip behind the first column. -/
theorem sampleOf_lone_of_ne {chip : Chip} (other : chip.column ≠ 0) (line : Nat) (sample : UInt8) :
    sampleOf chip 1 (lone line sample) = .error (.invalidChip chip.letter) := by
  have behind : [digits sample][chip.column.val]? = none := by
    rw [List.getElem?_eq_none_iff, List.length_singleton]
    exact Nat.one_le_iff_ne_zero.2 fun e => other (Fin.ext e)
  rw [sampleOf, cells_lone, if_pos List.length_singleton, behind]

theorem letter_eq_A {chip : Chip} : chip.letter = 'A' ↔ chip.column = 0 := by
  obtain ⟨column⟩ := chip
  revert column
  decide

/-- The text of a table is a capture of chip A alone. -/
theorem read_text (table : Table) (chip : Chip) :
    read chip table.text.toList =
      if chip.letter = 'A' then .ok table else .error (.invalidChip chip.letter) := by
  have size : table.samples.toList.length = tableSize := Vector.length_toList
  obtain ⟨first, rest, samples⟩ : ∃ first rest, table.samples.toList = first :: rest :=
    List.exists_cons_of_length_pos (by rw [size]; decide)
  have one : width (loneFrom 1 table.samples.toList) = 1 := by
    rw [samples]
    rfl
  rw [read, Table.text, dropMark_sampleText, records_sampleText, column, one]
  split
  next isA =>
    obtain ⟨column⟩ := chip
    obtain rfl : column = 0 := letter_eq_A.1 isA
    rw [mapM_sampleOf_loneFrom]
    change (if table.samples.toList.length = tableSize then _ else _) = _
    rw [if_pos size]
    exact Table.ofSamples_toArray table
  next notA =>
    -- The width is checked first, and here it is right: the first record blames the chip.
    rw [samples, loneFrom, List.mapM_cons, sampleOf_lone_of_ne fun e => notA (letter_eq_A.2 e)]
    rfl

end WaveBus.Capture
