import WaveBus.Capture

/-! # Rows of cells

However the cells of a row are written, a reader that takes in the row and a line end closes
one record with what the cells hold. A line end between two rows closes nothing: all it may
change is how many line feeds have been read.
-/

namespace WaveBus.Capture

open Text

/-- Whether a character has no meaning to a reader outside quotes. -/
def isOrdinary (c : Char) : Bool := c != ',' && !isLineEnd c && c != '"'

theorem isOrdinary_iff {c : Char} :
    isOrdinary c = true ↔ c ≠ ',' ∧ c ≠ '\n' ∧ c ≠ '\r' ∧ c ≠ '"' := by
  simp [isOrdinary, isLineEnd, and_assoc]

/-- A cell as it is written, and what it holds. Quotes count only where they begin a cell. -/
inductive CellText : List Char → List Char → Prop where
  | bare {text : List Char} (ordinary : ∀ c ∈ text, isOrdinary c = true) : CellText text text
  | quoted {inside behind : List Char} (ordinary : ∀ c ∈ inside, isOrdinary c = true)
      (ordinary_behind : ∀ c ∈ behind, isOrdinary c = true) :
      CellText ('"' :: (inside ++ '"' :: behind)) (inside ++ behind)

/-- What the cells of a row hold, and the row as it is written. -/
inductive Row : List (List Char) → List Char → Prop where
  | last {content text : List Char} (cell : CellText text content) : Row [content] text
  | cons {content text more : List Char} {contents : List (List Char)}
      (cell : CellText text content) (rest : Row contents more) :
      Row (content :: contents) (text ++ ',' :: more)

namespace Reader

/-! ## Steps -/

section Step

variable {r : Reader} {c : Char}

theorem count_ordinary (r : Reader) (ordinary : isOrdinary c = true) : r.count c = r := by
  obtain ⟨-, feed, -, -⟩ := isOrdinary_iff.1 ordinary
  simp [count, feed]

theorem plainStep_ordinary (r : Reader) (ordinary : isOrdinary c = true) :
    r.plainStep c = r.push .plain c := by
  obtain ⟨comma, feed, ret, -⟩ := isOrdinary_iff.1 ordinary
  simp [plainStep, isLineEnd, comma, feed, ret]

theorem step_ordinary (unquoted : r.mode ≠ .quoted) (ordinary : isOrdinary c = true) :
    r.step c = r.push .plain c := by
  obtain ⟨-, feed, ret, quote⟩ := isOrdinary_iff.1 ordinary
  rw [step, count_ordinary r ordinary]
  cases mode : r.mode with
  | quoted => exact absurd mode unquoted
  | _ => simp [startStep, plainStep_ordinary r ordinary, isLineEnd, feed, ret, quote]

theorem step_quoted (mode : r.mode = .quoted) (ordinary : isOrdinary c = true) :
    r.step c = r.push .quoted c := by
  obtain ⟨-, -, -, quote⟩ := isOrdinary_iff.1 ordinary
  simp [step, count_ordinary r ordinary, mode, quote]

theorem step_comma (unquoted : r.mode ≠ .quoted) : r.step ',' = r.endCell := by
  cases mode : r.mode with
  | quoted => exact absurd mode unquoted
  | _ => simp [step, count, mode, startStep, plainStep, isLineEnd]

/-- In a record that has begun, a line end closes it. -/
theorem step_lineEnd (unquoted : r.mode ≠ .quoted) (begun : r.mode ≠ .outside)
    (ends : isLineEnd c = true) : r.step c = (r.count c).endRecord := by
  have cases_c : c = '\n' ∨ c = '\r' := by simpa [isLineEnd] using ends
  have plain : ∀ r : Reader, r.plainStep c = r.endRecord := by
    intro r
    rcases cases_c with rfl | rfl <;> rfl
  have quote : (c == '"') = false := by
    rcases cases_c with rfl | rfl <;> rfl
  have kept : (r.count c).mode = r.mode := by
    rw [count]
    split <;> rfl
  rw [step]
  cases mode : r.mode with
  | quoted => exact absurd mode unquoted
  | outside => exact absurd mode begun
  | _ => simp [kept, mode, startStep, plain, quote]

end Step

/-! ## Cells -/

section Cells

variable {r : Reader} {text : List Char}

theorem foldl_plain (mode : r.mode = .plain) (ordinary : ∀ c ∈ text, isOrdinary c = true) :
    text.foldl step r = { r with cell := text.reverse ++ r.cell } := by
  induction text generalizing r with
  | nil => rfl
  | cons c text ih =>
      obtain ⟨first, rest⟩ := List.forall_mem_cons.1 ordinary
      have unquoted : r.mode ≠ .quoted := by rw [mode]; decide
      rw [List.foldl_cons, step_ordinary unquoted first, ih rfl rest, push, ← mode,
        List.reverse_cons, List.append_assoc]
      rfl

theorem foldl_quoted (mode : r.mode = .quoted) (ordinary : ∀ c ∈ text, isOrdinary c = true) :
    text.foldl step r = { r with cell := text.reverse ++ r.cell } := by
  induction text generalizing r with
  | nil => rfl
  | cons c text ih =>
      obtain ⟨first, rest⟩ := List.forall_mem_cons.1 ordinary
      rw [List.foldl_cons, step_quoted mode first, ih rfl rest, push, ← mode, List.reverse_cons,
        List.append_assoc]
      rfl

/-- A reader at the beginning of a cell. -/
structure Fresh (r : Reader) : Prop where
  mode : r.mode = .outside ∨ r.mode = .cellStart
  cell : r.cell = []

theorem Fresh.step_quote (fresh : r.Fresh) : r.step '"' = { r with mode := .quoted } := by
  rcases fresh.mode with mode | mode <;> simp [step, count, mode, startStep, isLineEnd]

/-- A reader with more cells, behind the comma that follows the last of them. -/
def adding (r : Reader) (contents : List (List Char)) : Reader :=
  { r with mode := .cellStart, cell := [], cells := (contents.map trim).reverse ++ r.cells }

theorem fresh_adding (r : Reader) (contents : List (List Char)) : (r.adding contents).Fresh :=
  ⟨.inr rfl, rfl⟩

theorem adding_adding (r : Reader) (contents more : List (List Char)) :
    (r.adding contents).adding more = r.adding (contents ++ more) := by
  simp [adding]

theorem endCell_eq_adding {content : List Char} (h : r.cell = content.reverse) :
    r.endCell = r.adding [content] := by
  simp [endCell, adding, h]

/-- A reader after a text, as against one at the beginning of a cell: if the text is all, it
    has these cells more. -/
structure Adds (start : Reader) (text : List Char) (contents : List (List Char))
    (r : Reader) : Prop where
  closes : r.endCell = start.adding contents
  unquoted : r.mode ≠ .quoted
  begun : r.mode = .outside → start.mode = .outside ∧ text = []

/-- Ordinary characters go on with the cell and with the record. -/
theorem foldl_unquoted (unquoted : r.mode ≠ .quoted) (ordinary : ∀ c ∈ text, isOrdinary c = true) :
    (text.foldl step r).endCell = { r with cell := text.reverse ++ r.cell }.endCell ∧
      (text.foldl step r).mode ≠ .quoted ∧
      ((text.foldl step r).mode = .outside → r.mode = .outside ∧ text = []) := by
  cases text with
  | nil => exact ⟨rfl, unquoted, fun mode => ⟨mode, rfl⟩⟩
  | cons c text =>
      obtain ⟨first, rest⟩ := List.forall_mem_cons.1 ordinary
      rw [List.foldl_cons, step_ordinary unquoted first, foldl_plain rfl rest]
      refine ⟨?_, by rintro ⟨⟩, by rintro ⟨⟩⟩
      rw [List.reverse_cons, List.append_assoc]
      rfl

theorem adds_cell (fresh : r.Fresh) {content : List Char} (cell : CellText text content) :
    r.Adds text [content] (text.foldl step r) := by
  cases cell with
  | bare ordinary =>
      have unquoted : r.mode ≠ .quoted := by
        rcases fresh.mode with mode | mode <;> simp [mode]
      obtain ⟨closes, unquoted, begun⟩ := foldl_unquoted unquoted ordinary
      refine ⟨?_, unquoted, begun⟩
      rw [closes, fresh.cell, List.append_nil]
      exact endCell_eq_adding rfl
  | @quoted inside behind ordinary ordinary_behind =>
      have opened : ('"' :: inside).foldl step r =
          { r with mode := .quoted, cell := inside.reverse } := by
        rw [List.foldl_cons, fresh.step_quote, foldl_quoted rfl ordinary]
        simp [fresh.cell]
      have closed : ('"' :: (inside ++ '"' :: behind)).foldl step r =
          behind.foldl step { r with mode := .quoteSeen, cell := inside.reverse } := by
        rw [← List.cons_append, List.foldl_append, opened, List.foldl_cons]
        rfl
      have seen : { r with mode := .quoteSeen, cell := inside.reverse }.mode ≠ .quoted := by
        rintro ⟨⟩
      obtain ⟨closes, unquoted, begun⟩ := foldl_unquoted seen ordinary_behind
      rw [closed]
      refine ⟨?_, unquoted, fun mode => ?_⟩
      · rw [closes]
        exact endCell_eq_adding List.reverse_append.symm
      · cases (begun mode).1

theorem adds_row (fresh : r.Fresh) {contents : List (List Char)} (row : Row contents text) :
    r.Adds text contents (text.foldl step r) := by
  induction row generalizing r with
  | last cell => exact adds_cell fresh cell
  | @cons content text more contents cell rest ih =>
      -- The comma ends the cell and leaves a reader that stands before the next one.
      have first := adds_cell fresh cell
      rw [List.foldl_append, List.foldl_cons, step_comma first.unquoted, first.closes]
      obtain ⟨closes, unquoted, begun⟩ := ih (fresh_adding r [content])
      refine ⟨?_, unquoted, fun mode => ?_⟩
      · rw [closes, adding_adding, List.singleton_append]
      · cases (begun mode).1

end Cells

/-! ## Lines -/

/-- How many line feeds have been read behind one more character. -/
def fed (feeds : Nat) (c : Char) : Nat := if c == '\n' then feeds + 1 else feeds

theorem count_eq (r : Reader) (c : Char) : r.count c = { r with feeds := fed r.feeds c } := by
  rw [count, fed]
  split <;> rfl

/-- A reader between two records. -/
def idle (feeds line : Nat) (records : List Record) : Reader := { feeds, line, records }

section Line

variable {contents : List (List Char)} {text : List Char} {c : Char} (feeds line : Nat)
  (records : List Record)

theorem fresh_idle : (idle feeds line records).Fresh :=
  ⟨.inl rfl, rfl⟩

theorem Adds.count {start r : Reader} (h : start.Adds text contents r) (c : Char) :
    (start.count c).Adds text contents (r.count c) := by
  rw [count_eq, count_eq]
  refine ⟨?_, h.unquoted, h.begun⟩
  calc endCell { r with feeds := fed r.feeds c }
    _ = { r.endCell with feeds := fed r.endCell.feeds c } := rfl
    _ = { start.adding contents with feeds := fed (start.adding contents).feeds c } := by
        rw [h.closes]

theorem endRecord_of_adds {r : Reader} (h : (idle feeds line records).Adds text contents r) :
    r.endRecord = idle feeds (feeds + 1) (⟨line, contents.map trim⟩ :: records) := by
  rw [endRecord, h.closes]
  simp [adding, idle]

/-- A row that is not empty and a line end make a record. -/
theorem foldl_row (row : Row contents text) (filled : text ≠ []) (ends : isLineEnd c = true) :
    (text ++ [c]).foldl step (idle feeds line records) =
      idle (fed feeds c) (fed feeds c + 1) (⟨line, contents.map trim⟩ :: records) := by
  have adds := adds_row (fresh_idle feeds line records) row
  have begun : (text.foldl step (idle feeds line records)).mode ≠ .outside :=
    fun mode => filled (adds.begun mode).2
  have counted := adds.count c
  rw [List.foldl_append, List.foldl_cons, List.foldl_nil, step_lineEnd adds.unquoted begun ends]
  rw [count_eq (idle feeds line records)] at counted
  exact endRecord_of_adds _ _ _ counted

/-- The line end of the last row may be missing. -/
theorem finish_row (row : Row contents text) (filled : text ≠ []) :
    (text.foldl step (idle feeds line records)).finish =
      (⟨line, contents.map trim⟩ :: records).reverse := by
  have adds := adds_row (fresh_idle feeds line records) row
  rw [finish]
  split
  next mode => exact absurd (adds.begun mode).2 filled
  next => rw [endRecord_of_adds _ _ _ adds, idle]

/-- A line end between two records makes none. -/
theorem step_blank (ends : isLineEnd c = true) :
    (idle feeds line records).step c = idle (fed feeds c) line records := by
  rw [step, count_eq]
  simp only [idle, ends, if_true]

theorem foldl_blank (ends : ∀ c ∈ text, isLineEnd c = true) :
    text.foldl step (idle feeds line records) = idle (text.foldl fed feeds) line records := by
  induction text generalizing feeds with
  | nil => rfl
  | cons c text ih =>
      obtain ⟨first, rest⟩ := List.forall_mem_cons.1 ends
      rw [List.foldl_cons, step_blank feeds line records first, ih (fed feeds c) rest,
        List.foldl_cons]

end Line

end Reader

end WaveBus.Capture
