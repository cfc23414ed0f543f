import WaveBus.Proofs.Capture.Format
import WaveBus.Proofs.Capture.Written

/-! # The layout of captures

A grid of bytes can be written in many ways: with blanks or quotes around a number, with a sign
and zeros in front of it, with any line ends and with empty lines between the rows. A reader
finds the same records in all of them, up to the lines on which they stand, so the column of a
chip is the same.
-/

namespace WaveBus.Capture

open Text

/-! ## Layouts -/

/-- A byte as a cell may have it: in decimal, with blanks around it and perhaps in quotes. -/
inductive ByteText (byte : UInt8) : List Char → Prop where
  | padded {before numeral after : List Char} (denotes : Numeral.Denotes numeral byte.toNat)
      (gap_before : Gap before) (gap_after : Gap after) :
      ByteText byte (before ++ (numeral ++ after))
  | quoted {before numeral after behind : List Char}
      (denotes : Numeral.Denotes numeral byte.toNat) (gap_before : Gap before)
      (gap_after : Gap after) (gap_behind : Gap behind) :
      ByteText byte ('"' :: (before ++ (numeral ++ after) ++ '"' :: behind))

/-- A row of bytes as a line may have it. -/
inductive RowText : List UInt8 → List Char → Prop where
  | last {byte : UInt8} {text : List Char} (cell : ByteText byte text) : RowText [byte] text
  | cons {byte : UInt8} {bytes : List UInt8} {text more : List Char} (cell : ByteText byte text)
      (rest : RowText bytes more) : RowText (byte :: bytes) (text ++ ',' :: more)

/-- The end of a line. -/
inductive LineEnd : List Char → Prop where
  | feed : LineEnd ['\n']
  | carriage : LineEnd ['\r']
  | both : LineEnd ['\r', '\n']

/-- Rows of bytes as a text may have them. Only the last row may go without a line end. -/
inductive Layout : List (List UInt8) → List Char → Prop where
  | nil : Layout [] []
  | last {bytes : List UInt8} {text : List Char} (row : RowText bytes text) : Layout [bytes] text
  | blank {rows : List (List UInt8)} {ending text : List Char} (ends : LineEnd ending)
      (rest : Layout rows text) : Layout rows (ending ++ text)
  | row {bytes : List UInt8} {rows : List (List UInt8)} {text ending more : List Char}
      (row : RowText bytes text) (ends : LineEnd ending) (rest : Layout rows more) :
      Layout (bytes :: rows) (text ++ (ending ++ more))

/-! ## Cells and rows -/

theorem isBare_of_denotes {numeral : List Char} {n : Nat} (h : Numeral.Denotes numeral n) :
    ∀ c ∈ numeral, isBare c = true := by
  cases h with
  | plain filled all => exact fun c inside => isBare_of_isDigit (all c inside)
  | signed filled all =>
      exact List.forall_mem_cons.2 ⟨by decide, fun c inside => isBare_of_isDigit (all c inside)⟩

theorem isOrdinary_of_gap {text : List Char} (gap : Gap text) : ∀ c ∈ text, isOrdinary c = true := by
  intro c inside
  rcases gap c inside with rfl | rfl <;> rfl

theorem padded_numeral {before numeral after : List Char} {n : Nat}
    (denotes : Numeral.Denotes numeral n) (gap : Gap before) (gap' : Gap after) :
    Padded (before ++ (numeral ++ after)) numeral :=
  (padded_of_visible fun c inside => (bare_iff.1 (isBare_of_denotes denotes c inside)).2).append
    gap.isBlank gap'.isBlank

theorem isOrdinary_padded {before numeral after : List Char} {n : Nat}
    (denotes : Numeral.Denotes numeral n) (gap : Gap before) (gap' : Gap after) :
    ∀ c ∈ before ++ (numeral ++ after), isOrdinary c = true := by
  have bare := fun c inside => (bare_iff.1 (isBare_of_denotes denotes c inside)).1
  exact List.forall_mem_append.2 ⟨isOrdinary_of_gap gap,
    List.forall_mem_append.2 ⟨bare, isOrdinary_of_gap gap'⟩⟩

namespace ByteText

variable {byte : UInt8} {text : List Char}

/-- What a cell holds is a numeral for its byte, once it is trimmed. -/
theorem exists_content (h : ByteText byte text) :
    ∃ content, CellText text content ∧ Numeral.Denotes (trim content) byte.toNat := by
  cases h with
  | padded denotes gap_before gap_after =>
      refine ⟨_, .bare (isOrdinary_padded denotes gap_before gap_after), ?_⟩
      rwa [trim_eq_iff.2 (padded_numeral denotes gap_before gap_after)]
  | quoted denotes gap_before gap_after gap_behind =>
      refine ⟨_, .quoted (isOrdinary_padded denotes gap_before gap_after)
        (isOrdinary_of_gap gap_behind), ?_⟩
      have padded := (padded_numeral denotes gap_before gap_after).append
        (List.forall_mem_nil _) gap_behind.isBlank
      rwa [← List.nil_append (_ ++ _), trim_eq_iff.2 padded]

theorem ne_nil (h : ByteText byte text) : text ≠ [] := by
  cases h with
  | padded denotes => simp [denotes.ne_nil]
  | quoted => exact List.cons_ne_nil _ _

end ByteText

namespace RowText

variable {bytes : List UInt8} {text : List Char}

theorem exists_contents (h : RowText bytes text) : ∃ contents, Row contents text ∧
    List.Forall₂ (fun byte content => Numeral.Denotes (trim content) byte.toNat) bytes contents := by
  induction h with
  | last cell =>
      obtain ⟨content, cell, denotes⟩ := cell.exists_content
      exact ⟨[content], .last cell, .cons denotes .nil⟩
  | cons cell rest ih =>
      obtain ⟨content, cell, denotes⟩ := cell.exists_content
      obtain ⟨contents, row, others⟩ := ih
      exact ⟨content :: contents, .cons cell row, .cons denotes others⟩

theorem ne_nil (h : RowText bytes text) : text ≠ [] := by
  cases h with
  | last cell => exact cell.ne_nil
  | cons cell => simp

end RowText

/-! ## Records -/

/-- A record with cells for some bytes. -/
def Holds (bytes : List UInt8) (record : Record) : Prop :=
  List.Forall₂ (fun byte cell => Numeral.Denotes cell byte.toNat) bytes record.cells

theorem holds_row {bytes : List UInt8} {contents : List (List Char)}
    (h : List.Forall₂ (fun byte content => Numeral.Denotes (trim content) byte.toNat) bytes contents)
    (line : Nat) : Holds bytes ⟨line, contents.map trim⟩ :=
  List.forall₂_map_right_iff.2 h

theorem LineEnd.exists_cons {ending : List Char} (ends : LineEnd ending) : ∃ c rest,
    ending = c :: rest ∧ isLineEnd c = true ∧ ∀ d ∈ rest, isLineEnd d = true := by
  cases ends with
  | feed => exact ⟨_, _, rfl, rfl, nofun⟩
  | carriage => exact ⟨_, _, rfl, rfl, nofun⟩
  | both => exact ⟨_, _, rfl, rfl, by rintro c (_ | ⟨_, ⟨⟩⟩); rfl⟩

/-- Whatever the layout, the rows are found in it. -/
theorem Layout.exists_records {rows : List (List UInt8)} {text : List Char}
    (layout : Layout rows text) (feeds line : Nat) (records : List Record) :
    ∃ found, (text.foldl Reader.step (.idle feeds line records)).finish =
        records.reverse ++ found ∧ List.Forall₂ Holds rows found := by
  -- Behind every line end the reader stands between two records again.
  induction layout generalizing feeds line records with
  | nil => exact ⟨[], (List.append_nil _).symm, .nil⟩
  | last row =>
      obtain ⟨contents, cells, denotes⟩ := row.exists_contents
      refine ⟨[⟨line, contents.map trim⟩], ?_, .cons (holds_row denotes line) .nil⟩
      rw [Reader.finish_row feeds line records cells row.ne_nil, List.reverse_cons]
  | @blank rows ending text ends rest ih =>
      obtain ⟨c, more, rfl, first, others⟩ := ends.exists_cons
      rw [List.foldl_append,
        Reader.foldl_blank feeds line records (List.forall_mem_cons.2 ⟨first, others⟩)]
      exact ih _ line records
  | @row bytes rows text ending more row ends rest ih =>
      obtain ⟨contents, cells, denotes⟩ := row.exists_contents
      obtain ⟨c, extra, rfl, first, others⟩ := ends.exists_cons
      obtain ⟨found, finish, holds⟩ := ih (extra.foldl Reader.fed (Reader.fed feeds c))
        (Reader.fed feeds c + 1) (⟨line, contents.map trim⟩ :: records)
      refine ⟨⟨line, contents.map trim⟩ :: found, ?_, .cons (holds_row denotes line) holds⟩
      rw [List.cons_append, List.append_cons, List.foldl_append,
        Reader.foldl_row feeds line records cells row.ne_nil first, List.foldl_append,
        Reader.foldl_blank _ _ _ others, finish, List.reverse_cons, List.append_assoc]
      rfl

/-! ## Marks -/

theorem ByteText.mark_notMem {byte : UInt8} {text : List Char} (h : ByteText byte text) :
    byteOrderMark ∉ text := by
  have gap {text : List Char} (gap : Gap text) : byteOrderMark ∉ text :=
    gap.notMem (by decide) (by decide)
  have numeral {text : List Char} {n : Nat} (denotes : Numeral.Denotes text n) :
      byteOrderMark ∉ text := by
    cases denotes with
    | plain _ all => exact fun inside => absurd (all _ inside) (by decide)
    | signed _ all =>
        rintro (_ | ⟨_, inside⟩)
        exact absurd (all _ inside) (by decide)
  have quote : byteOrderMark ≠ '"' := by decide
  cases h with
  | padded denotes gap_before gap_after =>
      simp [numeral denotes, gap gap_before, gap gap_after]
  | quoted denotes gap_before gap_after gap_behind =>
      simp [quote, numeral denotes, gap gap_before, gap gap_after, gap gap_behind]

theorem RowText.mark_notMem {bytes : List UInt8} {text : List Char} (h : RowText bytes text) :
    byteOrderMark ∉ text := by
  have comma : byteOrderMark ≠ ',' := by decide
  induction h with
  | last cell => exact cell.mark_notMem
  | cons cell rest ih => simp [cell.mark_notMem, comma, ih]

theorem LineEnd.mark_notMem {ending : List Char} (ends : LineEnd ending) :
    byteOrderMark ∉ ending := by
  cases ends <;> decide

theorem Layout.mark_notMem {rows : List (List UInt8)} {text : List Char} (h : Layout rows text) :
    byteOrderMark ∉ text := by
  induction h with
  | nil => exact List.not_mem_nil
  | last row => exact row.mark_notMem
  | blank ends rest ih => simp [ends.mark_notMem, ih]
  | row row ends rest ih => simp [row.mark_notMem, ends.mark_notMem, ih]

/-- A mark in front of a layout is dropped, and nothing else is. -/
theorem Layout.dropMark {rows : List (List UInt8)} {mark text : List Char} (h : Layout rows text)
    (marked : mark = [] ∨ mark = [byteOrderMark]) : dropMark (mark ++ text) = text := by
  rcases marked with rfl | rfl
  · cases text with
    | nil => rfl
    | cons c text =>
        have other : c ≠ byteOrderMark := by
          rintro rfl
          exact h.mark_notMem List.mem_cons_self
        simp [Capture.dropMark, other]
  · rfl

/-! ## Columns -/

theorem fits_of_holds {chip : Chip} {columns : Nat} {row : Vector UInt8 columns} {record : Record}
    (holds : Holds row.toList record) (inside : chip.column.val < columns) :
    Fits chip columns record row[chip.column.val] := by
  obtain ⟨length, each⟩ := List.forall₂_iff_get.1 holds
  have even : record.cells.length = columns := by rw [← length, Vector.length_toList]
  have found := List.getElem?_eq_getElem (even ▸ inside : chip.column.val < record.cells.length)
  exact ⟨even, _, found, each _ (by simpa using inside) _⟩

/-- Records that all fit give their samples, if there are as many as there should be. -/
theorem column_of_fits {chip : Chip} {columns : Nat} {rows : List Record} {samples : List UInt8}
    (fits : List.Forall₂ (Fits chip columns) rows samples) (count : samples.length = tableSize) :
    column chip rows = .ok ⟨⟨samples.toArray, count⟩⟩ := by
  have even : width rows = columns := by
    cases fits with
    | nil => exact absurd count (by decide)
    | cons first rest => exact first.even
  apply column_of_count
  rw [even]
  exact mapM_eq_ok_of_forall₂ (fits.imp fun record sample => sampleOf_of_fits)

/-- However a grid of bytes is laid out, reading gives the column of the chip. -/
theorem read_layout {chip : Chip} {columns : Nat} (inside : chip.column.val < columns)
    (grid : Vector (Vector UInt8 columns) tableSize) {mark text : List Char}
    (marked : mark = [] ∨ mark = [byteOrderMark])
    (layout : Layout (grid.toList.map Vector.toList) text) :
    read chip (mark ++ text) = .ok ⟨grid.map fun row => row[chip.column.val]⟩ := by
  obtain ⟨rows, finish, holds⟩ := layout.exists_records 0 1 []
  have found : records (dropMark (mark ++ text)) = rows := by
    rw [layout.dropMark marked]
    exact finish
  have fits : List.Forall₂ (Fits chip columns) rows
      (grid.map fun row => row[chip.column.val]).toList := by
    rw [Vector.toList_map]
    apply List.forall₂_map_right_iff.2
    apply List.Forall₂.flip
    exact (List.forall₂_map_left_iff.1 holds).imp fun row record held => fits_of_holds held inside
  rw [read, found, column_of_fits fits Vector.length_toList]
  rfl

/-- Two columns, with the sign, the quotes and the line ends that a capture may have. -/
theorem read_layout_of_constant_columns :
    let line := "+007\t,\" 255\" \r\n\n".toList
    read ⟨1⟩ (byteOrderMark :: (List.replicate tableSize line).flatten) =
      .ok ⟨.replicate tableSize 255⟩ := by
  intro line
  have seven : ByteText 7 "+007\t".toList :=
    @ByteText.padded 7 [] _ ['\t']
      (@Numeral.Denotes.signed ['0', '0', '7'] nofun (List.all_eq_true.1 rfl)) (by decide) (by decide)
  have most : ByteText 255 "\" 255\" ".toList :=
    @ByteText.quoted 255 [' '] _ [] [' ']
      (@Numeral.Denotes.plain ['2', '5', '5'] nofun (List.all_eq_true.1 rfl)) (by decide) (by decide)
      (by decide)
  have row : RowText [7, 255] "+007\t,\" 255\" ".toList := .cons seven (.last most)
  have layout (n : Nat) : Layout (List.replicate n [7, 255])
      (List.replicate n line).flatten := by
    induction n with
    | zero => exact .nil
    | succ n ih => exact .row row .both (.blank .feed ih)
  have whole := @read_layout ⟨1⟩ 2 (by decide) (.replicate tableSize #v[7, 255]) [byteOrderMark]
    _ (.inr rfl) (by simpa using layout tableSize)
  simpa using whole

end WaveBus.Capture
