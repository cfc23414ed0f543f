import WaveBus.Proofs.Capture.Format
import WaveBus.Proofs.Capture.Row
import WaveBus.Text.Line

/-! # Lines of captures

Where no cell is in quotes, every line that is not blank has one record on it. The number that a
record carries is that of the line on which the reader stood when it had closed the record in
front: behind a lone line feed this is the next line, behind a carriage return it is still the
same one, and blank lines are passed over only after that. So the number of a fault is never too
large, and it is right if and only if the line in front is not blank and has no carriage return.
-/

namespace WaveBus.Capture

open Text

/-! ## Lines and records -/

/-- What stands on a line, and whether a carriage return comes before its line feed. -/
structure Line where
  content : List Char
  returned : Bool

namespace Line

/-- No quotes in the line. -/
def Plain (line : Line) : Prop := ∀ c ∈ line.content, isLineEnd c = false ∧ c ≠ '"'

instance : DecidablePred Plain := fun line => List.decidableBAll _ line.content

def text (line : Line) : List Char :=
  line.content ++ if line.returned then ['\r', '\n'] else ['\n']

def isBlank (line : Line) : Bool := line.content.isEmpty

def cells (line : Line) : List (List Char) := (splitAll ',' line.content).map trim

/-- Where a reader stands that has read a line of this number: not behind its line feed if the
    carriage return came first. -/
def following (line : Line) (number : Nat) : Nat :=
  if line.returned then number else number + 1

end Line

/-- The lines of a text. The last one may go without a line end. -/
inductive Lined : List Line → List Char → Prop where
  | nil : Lined [] []
  | last {content : List Char} (plain : Line.Plain ⟨content, false⟩) (filled : content ≠ []) :
      Lined [⟨content, false⟩] content
  | line {line : Line} {lines : List Line} {text : List Char} (plain : line.Plain)
      (rest : Lined lines text) : Lined (line :: lines) (line.text ++ text)

/-- The records of lines of which the first has the given number, for a reader that has begun
    at `start`. -/
def recordsFrom (start number : Nat) : List Line → List Record
  | [] => []
  | line :: rest =>
      if line.isBlank then
        recordsFrom start (number + 1) rest
      else
        ⟨start, line.cells⟩ :: recordsFrom (line.following number) (number + 1) rest

/-- A part of a line between two commas has no character with a meaning. -/
theorem isOrdinary_of_plain {cell : List Char} (plain : ∀ c ∈ cell, isLineEnd c = false ∧ c ≠ '"')
    (single : ',' ∉ cell) : ∀ c ∈ cell, isOrdinary c = true := by
  intro c inside
  obtain ⟨lineEnd, quote⟩ := plain c inside
  have comma : c ≠ ',' := fun same => single (same ▸ inside)
  simp [isOrdinary, comma, lineEnd, quote]

/-- A line without quotes is a row of the parts between its commas. -/
theorem row_splitAll {content : List Char}
    (plain : ∀ c ∈ content, isLineEnd c = false ∧ c ≠ '"') : Row (splitAll ',' content) content := by
  by_cases inside : ',' ∈ content
  · obtain ⟨cell, rest, rfl, first⟩ := List.eq_append_cons_of_mem inside
    obtain ⟨plain_cell, plain_rest⟩ := List.forall_mem_append.1 plain
    rw [splitAll_append first]
    exact .cons (.bare (isOrdinary_of_plain plain_cell first))
      (row_splitAll (List.forall_mem_cons.1 plain_rest).2)
  · rw [splitAll_of_notMem inside]
    exact .last (.bare (isOrdinary_of_plain plain inside))
termination_by content.length
decreasing_by
  rw [‹content = _›]
  simp
  omega

/-- A reader has at the end what it had, and one record for every line that is not blank. -/
theorem Lined.finish {lines : List Line} {text : List Char} (lined : Lined lines text)
    (feeds start : Nat) (records : List Record) :
    (text.foldl Reader.step (.idle feeds start records)).finish =
      records.reverse ++ recordsFrom start (feeds + 1) lines := by
  -- Behind a line feed the reader stands between two records, and the next line is the next.
  induction lined generalizing feeds start records with
  | nil => exact (List.append_nil _).symm
  | @last content plain filled =>
      rw [Reader.finish_row feeds start records (row_splitAll plain) filled, List.reverse_cons]
      simp [recordsFrom, Line.isBlank, filled, Line.cells]
  | @line line lines text plain rest ih =>
      obtain ⟨content, returned⟩ := line
      rw [List.foldl_append]
      by_cases blank : content = []
      · subst blank
        have passed : (Line.text ⟨[], returned⟩).foldl Reader.step (.idle feeds start records) =
            .idle (feeds + 1) start records := by
          cases returned
          · exact @Reader.step_blank '\n' feeds start records rfl
          · exact Reader.foldl_blank feeds start records (List.all_eq_true.1 rfl)
        rw [passed, ih, recordsFrom]
        rfl
      · have row := row_splitAll plain
        have closed : (Line.text ⟨content, returned⟩).foldl Reader.step (.idle feeds start records) =
            .idle (feeds + 1) (Line.following ⟨content, returned⟩ (feeds + 1))
              (⟨start, Line.cells ⟨content, returned⟩⟩ :: records) := by
          cases returned
          · exact Reader.foldl_row feeds start records row blank rfl
          · rw [Line.text, if_pos rfl, List.append_cons, List.foldl_append,
              Reader.foldl_row feeds start records row blank rfl]
            exact @Reader.step_blank '\n' feeds (feeds + 1) _ rfl
        rw [closed, ih, recordsFrom, if_neg (by simpa [Line.isBlank] using blank),
          List.reverse_cons, List.append_assoc]
        rfl

theorem Lined.records_eq {lines : List Line} {text : List Char} (lined : Lined lines text) :
    records text = recordsFrom 1 1 lines :=
  lined.finish 0 1 []

/-! ## Numbers -/

/-- The number of the line that a reader has reached behind some lines when it begins the next
    record: a blank line does not change it. -/
inductive Reached : List Line → Nat → Prop where
  | start : Reached [] 1
  | blank {before : List Line} {line : Line} {number : Nat} (h : Reached before number)
      (blank : line.isBlank = true) : Reached (before ++ [line]) number
  | record (before : List Line) {line : Line} (filled : line.isBlank = false) :
      Reached (before ++ [line]) (line.following (before.length + 1))

/-- The last of some lines is not blank and has no carriage return. -/
def Close (before : List Line) : Prop :=
  ∀ line ∈ before.getLast?, line.isBlank = false ∧ line.returned = false

theorem close_concat_iff {before : List Line} {line : Line} :
    Close (before ++ [line]) ↔ line.isBlank = false ∧ line.returned = false := by
  simp [Close]

section Reached

variable {before : List Line} {number : Nat}

theorem Reached.le (h : Reached before number) : number ≤ before.length + 1 := by
  induction h with
  | start => exact Nat.le_refl 1
  | blank h blank ih => exact Nat.le_succ_of_le (by simpa using ih)
  | @record before line filled =>
      rw [Line.following, List.length_append, List.length_singleton]
      split <;> omega

/-- A reader has reached the next line if the last one is not blank and has no carriage return,
    and not otherwise. -/
theorem Reached.eq_iff (h : Reached before number) :
    number = before.length + 1 ↔ Close before := by
  cases h with
  | start => exact ⟨fun _ => nofun, fun _ => rfl⟩
  | @blank before line _ h blank =>
      have le := h.le
      rw [close_concat_iff, blank, List.length_append, List.length_singleton]
      constructor
      · intro same
        omega
      · rintro ⟨⟨⟩, -⟩
  | @record before line filled =>
      rw [close_concat_iff, Line.following, List.length_append, List.length_singleton]
      cases line.returned <;> simp [filled]

end Reached

/-- A record with the line on which it stands, and with those in front of both. -/
structure Stands (earlier : List Record) (record : Record) (before : List Line) (line : Line) :
    Prop where
  filled : line.isBlank = false
  cells : record.cells = line.cells
  earlier : earlier.map Record.cells = (before.filter (!·.isBlank)).map Line.cells
  reached : Reached before record.line

/-- Every record stands on a line. -/
theorem exists_stands {front lines : List Line} {start : Nat} {passed earlier later : List Record}
    {record : Record} (reached : Reached front start)
    (cells : passed.map Record.cells = (front.filter (!·.isBlank)).map Line.cells)
    (h : recordsFrom start (front.length + 1) lines = earlier ++ record :: later) :
    ∃ before line after, lines = before ++ line :: after ∧
      Stands (passed ++ earlier) record (front ++ before) line := by
  induction lines generalizing front start passed earlier with
  | nil => simp [recordsFrom] at h
  | cons line lines ih =>
      have next : front.length + 1 + 1 = (front ++ [line]).length + 1 := by simp
      rw [recordsFrom, next] at h
      cases blank : line.isBlank with
      | true =>
          rw [if_pos blank] at h
          obtain ⟨before, found, after, rfl, stands⟩ :=
            ih (reached.blank blank) (by simpa [blank] using cells) h
          exact ⟨line :: before, found, after, rfl, by simpa using stands⟩
      | false =>
          rw [if_neg (by simp [blank])] at h
          cases earlier with
          | nil =>
              obtain ⟨rfl, -⟩ := List.cons.inj h
              exact ⟨[], line, lines, rfl, blank, rfl, by simpa using cells, by simpa using reached⟩
          | cons first earlier =>
              obtain ⟨rfl, rest⟩ := List.cons.inj h
              obtain ⟨before, found, after, rfl, stands⟩ :=
                @ih (front ++ [line]) _ (passed ++ [⟨start, line.cells⟩]) earlier
                  (.record front blank) (by simp [cells, blank]) rest
              exact ⟨line :: before, found, after, rfl, by simpa using stands⟩

/-- Where a capture without quotes is refused for a record, the fault carries the number of the
    line that the reader had reached when it began this record. It is never larger than that of
    the line on which the record stands, and it is this number if and only if the line in front
    is not blank and has no carriage return. -/
theorem line_of_malformed {chip : Chip} {lines : List Line} {text : List Char}
    (lined : Lined lines (dropMark text)) {number : Nat} {defect : Defect}
    (fails : read chip text = .error (.malformed number defect))
    (record : ∀ count, defect ≠ .recordCount tableSize count) :
    ∃ before line after earlier record, lines = before ++ line :: after ∧
      Stands earlier record before line ∧ Flawless chip earlier ∧
      Flaw chip earlier record (.malformed number defect) ∧ Reached before number ∧
      number ≤ before.length + 1 ∧ (number = before.length + 1 ↔ Close before) := by
  rcases column_eq_error_iff.1 fails with
    ⟨earlier, row, later, split, flawless, flaw⟩ | ⟨-, -, counted⟩
  · rw [lined.records_eq] at split
    obtain ⟨before, line, after, rfl, stands⟩ := @exists_stands [] _ 1 [] _ _ _ .start rfl split
    have same : row.line = number := by
      cases flaw <;> rfl
    have reached := same ▸ stands.reached
    exact ⟨before, line, after, earlier, row, rfl, stands, flawless, flaw, reached, reached.le,
      reached.eq_iff⟩
  · cases counted
    exact absurd rfl (record _)

/-- A blank line is passed over only when the number has been taken. -/
theorem line_of_malformed_behind_blank :
    let lines : List Line := [⟨['1'], false⟩, ⟨[], false⟩, ⟨['x'], false⟩]
    ∃ before line after earlier record, lines = before ++ line :: after ∧
      Stands earlier record before line ∧ Flawless ⟨0⟩ earlier ∧
      Flaw ⟨0⟩ earlier record (.malformed 2 (.notByte "x")) ∧ Reached before 2 ∧
      2 ≤ before.length + 1 ∧ (2 = before.length + 1 ↔ Close before) := by
  intro lines
  have lined : Lined lines (dropMark "1\n\nx\n".toList) :=
    .line (by decide) (.line (by decide) (.line (by decide) .nil))
  exact line_of_malformed lined rfl nofun

/-- Behind a carriage return the number is that of the line in front, though the record stands
    on the second line. -/
theorem malformed_behind_return :
    let first : Line := ⟨['1'], true⟩
    let second : Line := ⟨['x'], true⟩
    let text := "1\r\nx\r\n".toList
    let fault : Fault := .malformed 1 (.notByte "x")
    Lined [first, second] (dropMark text) ∧ read ⟨0⟩ text = .error fault ∧
      records text = [⟨1, first.cells⟩, ⟨1, second.cells⟩] ∧
      Stands [⟨1, first.cells⟩] ⟨1, second.cells⟩ [first] second ∧
      Flaw ⟨0⟩ [⟨1, first.cells⟩] ⟨1, second.cells⟩ fault := by
  intro first second text fault
  refine ⟨.line (by decide) (.line (by decide) .nil), rfl, rfl, ?_, ?_⟩
  · exact ⟨rfl, rfl, rfl, .record [] rfl⟩
  · exact .notByte (by rintro _ ⟨⟩; rfl) rfl (Numeral.readByte?_eq_none_iff.1 rfl)

end WaveBus.Capture
