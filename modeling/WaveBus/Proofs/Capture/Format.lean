import Mathlib.Data.List.Forall2
import WaveBus.Capture

/-! # The format of captures

What the records of a text must look like for a chip to have a table in it, and which
fault the first record that is different leads to. A record is judged by those in front
of it only: the first of them gives the width, and what follows does not count.
-/

namespace WaveBus

section Traverse

variable {ε α β : Type} {f : α → Except ε β}

theorem mapM_cons_ok {x : α} {y : β} (h : f x = .ok y) (xs : List α) :
    (x :: xs).mapM f = (xs.mapM f).map (y :: ·) := by
  rw [List.mapM_cons, h]
  cases xs.mapM f <;> rfl

theorem mapM_cons_error {x : α} {e : ε} (h : f x = .error e) (xs : List α) :
    (x :: xs).mapM f = .error e := by
  rw [List.mapM_cons, h]
  rfl

theorem forall₂_of_mapM_eq_ok {xs : List α} {ys : List β} (h : xs.mapM f = .ok ys) :
    List.Forall₂ (fun x y => f x = .ok y) xs ys := by
  induction xs generalizing ys with
  | nil =>
      cases h
      exact .nil
  | cons x xs ih =>
      cases first : f x with
      | error e => simp [mapM_cons_error first] at h
      | ok y =>
          rw [mapM_cons_ok first] at h
          cases rest : xs.mapM f with
          | error e => simp [rest, Except.map] at h
          | ok ys =>
              simp only [rest, Except.map, Except.ok.injEq] at h
              subst h
              exact .cons first (ih rest)

theorem mapM_eq_ok_of_forall₂ {xs : List α} {ys : List β}
    (h : List.Forall₂ (fun x y => f x = .ok y) xs ys) : xs.mapM f = .ok ys := by
  induction h with
  | nil => rfl
  | cons first rest ih =>
      rw [mapM_cons_ok first, ih]
      rfl

theorem exists_of_mapM_eq_ok {xs : List α} {ys : List β} (h : xs.mapM f = .ok ys) :
    ∀ x ∈ xs, ∃ y, f x = .ok y := by
  have pairs := forall₂_of_mapM_eq_ok h
  clear h
  induction pairs with
  | nil => nofun
  | cons first rest ih => exact List.forall_mem_cons.2 ⟨⟨_, first⟩, ih⟩

theorem exists_mapM_eq_ok {xs : List α} (h : ∀ x ∈ xs, ∃ y, f x = .ok y) :
    ∃ ys, xs.mapM f = .ok ys := by
  induction xs with
  | nil => exact ⟨[], rfl⟩
  | cons x xs ih =>
      obtain ⟨⟨y, first⟩, others⟩ := List.forall_mem_cons.1 h
      obtain ⟨ys, rest⟩ := ih others
      exact ⟨y :: ys, by rw [mapM_cons_ok first, rest]; rfl⟩

/-- The first element that fails decides. -/
theorem mapM_eq_error_iff {xs : List α} {e : ε} :
    xs.mapM f = .error e ↔ ∃ before x after, xs = before ++ x :: after ∧
      (∀ earlier ∈ before, ∃ y, f earlier = .ok y) ∧ f x = .error e := by
  induction xs with
  | nil => simp [pure, Except.pure]
  | cons x xs ih =>
      constructor
      · intro h
        cases first : f x with
        | error e' =>
            rw [mapM_cons_error first] at h
            cases h
            exact ⟨[], x, xs, rfl, nofun, first⟩
        | ok y =>
            rw [mapM_cons_ok first] at h
            cases rest : xs.mapM f with
            | ok ys => simp [rest, Except.map] at h
            | error e' =>
                simp only [rest, Except.map, Except.error.injEq] at h
                subst h
                obtain ⟨before, x', after, rfl, fine, wrong⟩ := ih.1 rest
                exact ⟨x :: before, x', after, rfl, List.forall_mem_cons.2 ⟨⟨y, first⟩, fine⟩, wrong⟩
      · rintro ⟨before, x', after, split, fine, wrong⟩
        cases before with
        | nil =>
            cases split
            exact mapM_cons_error wrong xs
        | cons x'' before =>
            cases split
            obtain ⟨⟨y, first⟩, others⟩ := List.forall_mem_cons.1 fine
            have rest := ih.2 ⟨before, x', after, rfl, others, wrong⟩
            rw [mapM_cons_ok first, rest]
            rfl

end Traverse

namespace Capture

/-- A record as wide as it should be, with a byte in the column of a chip. -/
structure Fits (chip : Chip) (width : Nat) (record : Record) (sample : UInt8) : Prop where
  even : record.cells.length = width
  byte : ∃ cell, record.cells[chip.column.val]? = some cell ∧ Numeral.Denotes cell sample.toNat

/-- What is wrong with a record behind others, the first of which gives the width. -/
inductive Flaw (chip : Chip) (before : List Record) (record : Record) : Fault → Prop where
  /-- The first record has no column for the chip. -/
  | narrow (first : before = []) (narrow : record.cells.length ≤ chip.column.val) :
      Flaw chip before record (.invalidChip chip.letter)
  | ragged {first : Record} (follows : before.head? = some first)
      (ragged : record.cells.length ≠ first.cells.length) :
      Flaw chip before record
        (.malformed record.line (.recordWidth first.cells.length record.cells.length))
  | notByte {cell : List Char}
      (even : ∀ first ∈ before.head?, record.cells.length = first.cells.length)
      (found : record.cells[chip.column.val]? = some cell)
      (large : ∀ n, Numeral.Denotes cell n → 255 < n) :
      Flaw chip before record (.malformed record.line (.notByte (String.ofList cell)))

/-- No record has a flaw. -/
def Flawless (chip : Chip) (rows : List Record) : Prop :=
  ∀ before record after, rows = before ++ record :: after → ∀ fault, ¬ Flaw chip before record fault

/-- The first record that has a flaw has this one. -/
def FirstFlaw (chip : Chip) (rows : List Record) (fault : Fault) : Prop :=
  ∃ before record after, rows = before ++ record :: after ∧ Flawless chip before ∧
    Flaw chip before record fault

/-- Records that hold a table for a chip. What stands in other columns does not count. -/
structure Regular (chip : Chip) (rows : List Record) : Prop where
  count : rows.length = tableSize
  even : ∀ record ∈ rows, record.cells.length = width rows
  column : chip.column.val < width rows
  bytes : ∀ record ∈ rows, ∀ cell, record.cells[chip.column.val]? = some cell →
    ∃ n, Numeral.Denotes cell n ∧ n ≤ 255

section SampleOf

variable {chip : Chip} {width : Nat} {record : Record}

theorem sampleOf_of_ragged (ragged : record.cells.length ≠ width) :
    sampleOf chip width record =
      .error (.malformed record.line (.recordWidth width record.cells.length)) := by
  simp [sampleOf, ragged]

theorem sampleOf_of_narrow (even : record.cells.length = width)
    (narrow : record.cells.length ≤ chip.column.val) :
    sampleOf chip width record = .error (.invalidChip chip.letter) := by
  simp [sampleOf, even, List.getElem?_eq_none narrow]

theorem sampleOf_of_notByte {cell : List Char} (even : record.cells.length = width)
    (found : record.cells[chip.column.val]? = some cell)
    (large : ∀ n, Numeral.Denotes cell n → 255 < n) :
    sampleOf chip width record =
      .error (.malformed record.line (.notByte (String.ofList cell))) := by
  simp [sampleOf, even, found, Numeral.readByte?_eq_none_iff.2 large]

theorem sampleOf_of_fits {sample : UInt8} (fits : Fits chip width record sample) :
    sampleOf chip width record = .ok sample := by
  obtain ⟨even, cell, found, denotes⟩ := fits
  simp [sampleOf, even, found, Numeral.readByte?_eq_some_iff.2 denotes]

theorem fits_of_sampleOf {sample : UInt8} (h : sampleOf chip width record = .ok sample) :
    Fits chip width record sample := by
  unfold sampleOf at h
  split at h
  next even =>
    split at h
    next => cases h
    next cell found =>
      split at h
      next sample' reads =>
        cases h
        exact ⟨even, cell, found, Numeral.readByte?_eq_some_iff.1 reads⟩
      next => cases h
  next => cases h

end SampleOf

/-- A record that follows others in which the chip has a column either fits or has a flaw. -/
theorem sampleOf_of_flaw {chip : Chip} {before after : List Record} {record : Record}
    {fault : Fault} (flaw : Flaw chip before record fault) :
    sampleOf chip (width (before ++ record :: after)) record = .error fault := by
  cases flaw with
  | narrow first narrow =>
      subst first
      exact sampleOf_of_narrow rfl narrow
  | ragged follows ragged =>
      obtain ⟨rest, rfl⟩ := List.head?_eq_some_iff.1 follows
      exact sampleOf_of_ragged ragged
  | notByte even found large =>
      refine sampleOf_of_notByte ?_ found large
      cases before with
      | nil => rfl
      | cons first before => exact even first rfl

/-- Behind records that fit, a record without a sample has a flaw. -/
theorem flaw_of_sampleOf {chip : Chip} {before after : List Record} {record : Record}
    (fine : ∀ earlier ∈ before, ∃ sample,
      sampleOf chip (width (before ++ record :: after)) earlier = .ok sample)
    {fault : Fault} (h : sampleOf chip (width (before ++ record :: after)) record = .error fault) :
    Flaw chip before record fault := by
  by_cases even : record.cells.length = width (before ++ record :: after)
  · cases found : record.cells[chip.column.val]? with
    | none =>
        have narrow := List.getElem?_eq_none_iff.1 found
        rw [sampleOf_of_narrow even narrow] at h
        cases h
        cases before with
        | nil => exact .narrow rfl narrow
        | cons first before =>
            -- The first record fits, so the chip has a column in it, and this one is as wide.
            obtain ⟨sample, fits⟩ := fine first List.mem_cons_self
            obtain ⟨_, cell, inside, -⟩ := fits_of_sampleOf fits
            obtain ⟨wide, -⟩ := List.getElem?_eq_some_iff.1 inside
            change record.cells.length = first.cells.length at even
            omega
    | some cell =>
        cases reads : Numeral.readByte? cell with
        | some sample =>
            have fits := sampleOf_of_fits ⟨even, cell, found, Numeral.readByte?_eq_some_iff.1 reads⟩
            rw [fits] at h
            cases h
        | none =>
            have large := Numeral.readByte?_eq_none_iff.1 reads
            rw [sampleOf_of_notByte even found large] at h
            cases h
            refine .notByte ?_ found large
            intro first follows
            obtain ⟨rest, rfl⟩ := List.head?_eq_some_iff.1 follows
            exact even
  · rw [sampleOf_of_ragged even] at h
    cases h
    cases before with
    | nil => exact absurd rfl even
    | cons first before => exact .ragged rfl even

theorem flawless_iff {chip : Chip} {rows : List Record} :
    Flawless chip rows ↔ ∃ samples, rows.mapM (sampleOf chip (width rows)) = .ok samples := by
  constructor
  · intro flawless
    cases all : rows.mapM (sampleOf chip (width rows)) with
    | ok samples => exact ⟨samples, rfl⟩
    | error fault =>
        obtain ⟨before, record, after, rfl, fine, wrong⟩ := mapM_eq_error_iff.1 all
        exact absurd (flaw_of_sampleOf fine wrong) (flawless before record after rfl fault)
  · rintro ⟨samples, all⟩ before record after rfl fault flaw
    obtain ⟨sample, fits⟩ := exists_of_mapM_eq_ok all record (by simp)
    rw [sampleOf_of_flaw flaw] at fits
    cases fits

/-- The records in front of a flawed one are judged by the same width. -/
theorem fine_iff {chip : Chip} {before after : List Record} {record : Record} :
    Flawless chip before ↔ ∀ earlier ∈ before, ∃ sample,
      sampleOf chip (width (before ++ record :: after)) earlier = .ok sample := by
  rw [flawless_iff]
  cases before with
  | nil => simp [pure, Except.pure]
  | cons first before =>
      exact ⟨fun ⟨_, all⟩ => exists_of_mapM_eq_ok all, exists_mapM_eq_ok⟩

theorem firstFlaw_iff {chip : Chip} {rows : List Record} {fault : Fault} :
    FirstFlaw chip rows fault ↔ rows.mapM (sampleOf chip (width rows)) = .error fault := by
  rw [mapM_eq_error_iff]
  constructor
  · rintro ⟨before, record, after, rfl, flawless, flaw⟩
    exact ⟨before, record, after, rfl, fine_iff.1 flawless, sampleOf_of_flaw flaw⟩
  · rintro ⟨before, record, after, rfl, fine, wrong⟩
    exact ⟨before, record, after, rfl, fine_iff.2 fine, flaw_of_sampleOf fine wrong⟩

theorem regular_iff {chip : Chip} {rows : List Record} :
    Regular chip rows ↔ Flawless chip rows ∧ rows.length = tableSize := by
  rw [flawless_iff]
  constructor
  · rintro ⟨count, even, column, bytes⟩
    refine ⟨exists_mapM_eq_ok fun record inside => ?_, count⟩
    have wide : chip.column.val < record.cells.length := by
      rw [even record inside]
      exact column
    have found := List.getElem?_eq_getElem wide
    obtain ⟨n, denotes, small⟩ := bytes record inside _ found
    have fits : Fits chip (width rows) record (UInt8.ofNat n) := by
      refine ⟨even record inside, _, found, ?_⟩
      rwa [UInt8.toNat_ofNat_of_lt' (Nat.lt_succ_of_le small)]
    exact ⟨_, sampleOf_of_fits fits⟩
  · rintro ⟨⟨samples, all⟩, count⟩
    have fits : ∀ record ∈ rows, ∃ sample, Fits chip (width rows) record sample := by
      intro record inside
      obtain ⟨sample, fine⟩ := exists_of_mapM_eq_ok all record inside
      exact ⟨sample, fits_of_sampleOf fine⟩
    refine ⟨count, ?_, ?_, ?_⟩
    · intro record inside
      obtain ⟨sample, even, -⟩ := fits record inside
      exact even
    · obtain ⟨first, rest, rfl⟩ := List.exists_cons_of_length_pos (by rw [count]; decide)
      obtain ⟨sample, -, cell, found, -⟩ := fits first List.mem_cons_self
      exact (List.getElem?_eq_some_iff.1 found).1
    · intro record inside cell found
      obtain ⟨sample, -, cell', found', denotes⟩ := fits record inside
      rw [found] at found'
      cases found'
      exact ⟨sample.toNat, denotes, Nat.le_of_lt_succ sample.toNat_lt⟩

theorem column_of_error {chip : Chip} {rows : List Record} {fault : Fault}
    (h : rows.mapM (sampleOf chip (width rows)) = .error fault) : column chip rows = .error fault := by
  rw [column, h]
  rfl

theorem column_of_count {chip : Chip} {rows : List Record} {samples : List UInt8}
    (h : rows.mapM (sampleOf chip (width rows)) = .ok samples)
    (count : samples.length = tableSize) : column chip rows = .ok ⟨⟨samples.toArray, count⟩⟩ := by
  rw [column, h]
  change (if samples.length = tableSize then _ else _) = _
  rw [if_pos count]
  exact dif_pos count

theorem column_of_wrongCount {chip : Chip} {rows : List Record} {samples : List UInt8}
    (h : rows.mapM (sampleOf chip (width rows)) = .ok samples)
    (count : samples.length ≠ tableSize) :
    column chip rows = .error (.malformed samples.length (.recordCount tableSize samples.length)) := by
  rw [column, h]
  change (if samples.length = tableSize then _ else _) = _
  rw [if_neg count]
  rfl

section Column

variable {chip : Chip} {rows : List Record}

theorem exists_column_eq_ok_iff : (∃ table, column chip rows = .ok table) ↔ Regular chip rows := by
  rw [regular_iff, flawless_iff]
  cases all : rows.mapM (sampleOf chip (width rows)) with
  | error fault => simp [column_of_error all]
  | ok samples =>
      have length := (forall₂_of_mapM_eq_ok all).length_eq
      by_cases count : samples.length = tableSize
      · simp [column_of_count all count, length, count]
      · simp [column_of_wrongCount all count, length, count]

theorem cell_of_column {table : Table} (h : column chip rows = .ok table) (i : Fin tableSize) :
    ∃ record cell, rows[i.val]? = some record ∧ record.cells[chip.column.val]? = some cell ∧
      Numeral.Denotes cell (table.samples.get i).toNat := by
  cases all : rows.mapM (sampleOf chip (width rows)) with
  | error fault => simp [column_of_error all] at h
  | ok samples =>
      obtain ⟨length, pairs⟩ := List.forall₂_iff_get.1 (forall₂_of_mapM_eq_ok all)
      by_cases count : samples.length = tableSize
      · rw [column_of_count all count] at h
        cases h
        have inside : i.val < rows.length := by
          rw [length, count]
          exact i.isLt
        obtain ⟨-, cell, found, denotes⟩ := fits_of_sampleOf (pairs i.val inside (length ▸ inside))
        exact ⟨rows[i.val], cell, List.getElem?_eq_getElem inside, found, denotes⟩
      · simp [column_of_wrongCount all count] at h

theorem column_eq_error_iff {fault : Fault} : column chip rows = .error fault ↔
    FirstFlaw chip rows fault ∨ Flawless chip rows ∧ rows.length ≠ tableSize ∧
      fault = .malformed rows.length (.recordCount tableSize rows.length) := by
  rw [firstFlaw_iff, flawless_iff]
  cases all : rows.mapM (sampleOf chip (width rows)) with
  | error first => simp [column_of_error all]
  | ok samples =>
      have length := (forall₂_of_mapM_eq_ok all).length_eq
      by_cases count : samples.length = tableSize
      · simp [column_of_count all count, length, count]
      · simp [column_of_wrongCount all count, length, count, eq_comm]

end Column

/-- Reads the samples of a chip record by record, and looks every cell up by its index:
    where the index is out of the record there is no result at all. -/
def scan (chip : Chip) (width : Nat) (samples : List UInt8) :
    List Record → Option (Except Fault (List UInt8))
  | [] => some (.ok samples)
  | record :: rest =>
      if record.cells.length ≠ width then
        some (.error (.malformed record.line (.recordWidth width record.cells.length)))
      else if samples.isEmpty ∧ record.cells.length ≤ chip.column.val then
        some (.error (.invalidChip chip.letter))
      else
        match record.cells[chip.column.val]? with
        | none => none
        | some cell =>
            match Numeral.readByte? cell with
            | none => some (.error (.malformed record.line (.notByte (String.ofList cell))))
            | some sample => scan chip width (samples ++ [sample]) rest

/-- Only the first record is checked for the column of the chip; the others are as wide. -/
theorem scan_eq {chip : Chip} {width : Nat} {samples : List UInt8}
    (checked : samples ≠ [] → chip.column.val < width) (rows : List Record) :
    scan chip width samples rows = some ((rows.mapM (sampleOf chip width)).map (samples ++ ·)) := by
  induction rows generalizing samples with
  | nil => simp [scan, pure, Except.pure, Except.map]
  | cons record rest ih =>
      unfold scan
      split
      next ragged =>
        rw [mapM_cons_error (sampleOf_of_ragged ragged)]
        rfl
      next even =>
        rw [ne_eq, Decidable.not_not] at even
        split
        next narrow =>
          rw [mapM_cons_error (sampleOf_of_narrow even narrow.2)]
          rfl
        next wide =>
          have inside : chip.column.val < record.cells.length := by
            cases samples with
            | nil => simpa using wide
            | cons => exact even ▸ checked (List.cons_ne_nil _ _)
          split
          next missing => simp [inside] at missing
          next cell found =>
            split
            next unread =>
              rw [mapM_cons_error (sampleOf_of_notByte even found
                (Numeral.readByte?_eq_none_iff.1 unread))]
              rfl
            next sample reads =>
              have fits : Fits chip width record sample :=
                ⟨even, cell, found, Numeral.readByte?_eq_some_iff.1 reads⟩
              rw [ih fun _ => even ▸ inside, mapM_cons_ok (sampleOf_of_fits fits)]
              cases rest.mapM (sampleOf chip width) <;> simp [Except.map]

/-- Reading by index: no result if a column is looked up outside of its record. -/
def readByIndex (chip : Chip) (text : List Char) : Option (Except Fault Table) := do
  let rows := records (dropMark text)
  let scanned ← scan chip (width rows) [] rows
  return do
    let samples ← scanned
    if samples.length = tableSize then
      Table.ofSamples samples.toArray
    else
      throw (.malformed samples.length (.recordCount tableSize samples.length))

theorem readByIndex_eq (chip : Chip) (text : List Char) :
    readByIndex chip text = some (read chip text) := by
  have scanned := @scan_eq chip (width (records (dropMark text))) [] (fun h => absurd rfl h)
    (records (dropMark text))
  rw [readByIndex, scanned, read, column]
  cases (records (dropMark text)).mapM (sampleOf chip (width (records (dropMark text)))) <;> rfl

/-- A text is a capture for a chip if its records are regular, and its table has the bytes
    of the chip's column. Otherwise the first record with a flaw decides the fault, and the
    number of records does only if none has a flaw. No column is ever looked up outside of
    its record. -/
theorem read_accepts_format (chip : Chip) (text : List Char) :
    let rows := records (dropMark text)
    ((∃ table, read chip text = .ok table) ↔ Regular chip rows) ∧
    (∀ table, read chip text = .ok table → ∀ i : Fin tableSize, ∃ record cell,
      rows[i.val]? = some record ∧ record.cells[chip.column.val]? = some cell ∧
        Numeral.Denotes cell (table.samples.get i).toNat) ∧
    (∀ fault, read chip text = .error fault ↔
      FirstFlaw chip rows fault ∨
        Flawless chip rows ∧ rows.length ≠ tableSize ∧
          fault = .malformed rows.length (.recordCount tableSize rows.length)) ∧
    readByIndex chip text = some (read chip text) := by
  exact ⟨exists_column_eq_ok_iff, fun _ => cell_of_column, fun _ => column_eq_error_iff,
    readByIndex_eq chip text⟩

end Capture

end WaveBus
