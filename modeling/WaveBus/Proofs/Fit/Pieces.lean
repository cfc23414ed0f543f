import WaveBus.Fit.Output
import WaveBus.Proofs.Fit.Transcript

/-! # The pieces of an output

Of all lines that a search writes only the tag in front of a block looks like a tag. So
an output of tagged blocks, cut before every tag, falls into these blocks again, and the
tag of a piece names the search that wrote it.
-/

namespace WaveBus

namespace Fit

/-- Whole lines, none of which looks like a tag. -/
inductive Body : List (List Char) → List Char → Prop
  | nil : Body [] []
  | line {line : List Char} {rest : List (List Char)} {text : List Char} (whole : '\n' ∉ line)
      (plain : isTag line = false) (more : Body rest text) :
      Body (line :: rest) (line ++ '\n' :: text)

namespace Body

variable {rows more : List (List Char)} {text behind : List Char}

theorem single {line : List Char} (whole : '\n' ∉ line) (plain : isTag line = false) :
    Body [line] (line ++ ['\n']) :=
  .line whole plain .nil

theorem append (h : Body rows text) (h' : Body more behind) :
    Body (rows ++ more) (text ++ behind) := by
  induction h with
  | nil => exact h'
  | line whole plain _ ih => simpa using Body.line whole plain ih

theorem lines_append (h : Body rows text) (rest : List Char) :
    Text.lines (text ++ rest) = rows ++ Text.lines rest := by
  induction h with
  | nil => rfl
  | line whole _ _ ih =>
      rw [List.append_assoc, List.cons_append, Text.lines_line_append whole, ih, List.cons_append]

theorem isTag_eq_false (h : Body rows text) : ∀ row ∈ rows, isTag row = false := by
  induction h with
  | nil => simp
  | line _ plain _ ih => simpa using ⟨plain, ih⟩

theorem flatMap_eq (h : Body rows text) : rows.flatMap (· ++ ['\n']) = text := by
  induction h with
  | nil => rfl
  | line _ _ _ ih => simp [ih]

theorem field_line (field : Params.Field) (value : Float32) :
    Body [field.assign (Params.style.write value)] (field.line value).toList := by
  have written := Written.write Params.style rfl value
  rw [Params.toList_line]
  refine single (Params.newline_notMem_assign field written) ?_
  cases field <;> rfl

theorem params (params : Params) : ∃ rows, Body rows params.text.toList := by
  rw [Params.text, String.toList_join]
  induction Params.Field.all with
  | nil => exact ⟨[], .nil⟩
  | cons field fields ih =>
      obtain ⟨rows, body⟩ := ih
      exact ⟨_, (field_line field (params.get field)).append body⟩

theorem numbered {words : String} (n : Nat) (whole : '\n' ∉ words.toList)
    (plain : ∀ digits, isTag (words.toList ++ digits) = false) :
    ∃ rows, Body rows (words ++ toString n ++ "\n").toList := by
  rw [Tells.toList_numbered]
  refine ⟨_, single (fun inside => ?_) (plain _)⟩
  rcases List.mem_append.1 inside with inside | inside
  · exact whole inside
  · exact absurd (Layout.isDigit_toDigits n _ inside) (by decide)

theorem block (block : Block) : ∃ rows, Body rows block.text.toList := by
  cases block with
  | opening score =>
      show ∃ rows, Body rows ("// initial score " ++ toString score ++ "\n").toList
      exact @numbered "// initial score " score (by decide) fun _ => rfl
  | improved improvement =>
      obtain ⟨rows, score⟩ :=
        @numbered "// current score " improvement.score (by decide) fun _ => rfl
      obtain ⟨more, body⟩ := params improvement.params
      have split : improvement.text = ("// current score " ++ toString improvement.score ++ "\n") ++
          improvement.params.text := rfl
      show ∃ rows, Body rows improvement.text.toList
      rw [split, String.toList_append]
      exact ⟨rows ++ more, score.append body⟩

end Body

/-- The line in front of every block of a wave. -/
def tagLine (wave : Wave) : List Char := ("// wave " ++ wave.text).toList

theorem isTag_tagLine (wave : Wave) : isTag (tagLine wave) = true := by
  cases wave <;> rfl

theorem newline_notMem_tagLine (wave : Wave) : '\n' ∉ tagLine wave := by
  cases wave <;> decide

theorem tagLine_inj {wave other : Wave} : tagLine wave = tagLine other ↔ wave = other := by
  cases wave <;> cases other <;> decide

/-- Pieces of which the first, if there is one, has its tag. -/
def Cut (pieces : List (List (List Char))) : Prop :=
  ∀ piece ∈ pieces.head?, ∃ tag rows, piece = tag :: rows ∧ isTag tag = true

theorem consPiece_of_cut {pieces : List (List (List Char))} (cut : Cut pieces) (line : List Char) :
    consPiece line pieces = [line] :: pieces := by
  cases pieces with
  | nil => rfl
  | cons piece pieces =>
      obtain ⟨tag, rows, rfl, marked⟩ := cut piece rfl
      simp [consPiece, marked]

/-- Lines that do not look like tags go to the line in front of them. -/
theorem consPiece_foldr {pieces : List (List (List Char))} (cut : Cut pieces)
    {rows : List (List Char)} (plain : ∀ row ∈ rows, isTag row = false) (line : List Char) :
    consPiece line (rows.foldr consPiece pieces) = (line :: rows) :: pieces := by
  induction rows generalizing line with
  | nil => exact consPiece_of_cut cut line
  | cons row rows ih =>
      have rest := ih (fun other inside => plain other (List.mem_cons_of_mem row inside)) row
      rw [List.foldr_cons, rest]
      simp [consPiece, plain row List.mem_cons_self]

theorem toList_pieceText (piece : List (List Char)) :
    (pieceText piece).toList = piece.flatMap (· ++ ['\n']) := by
  rw [pieceText, String.toList_join]
  simp [List.flatMap_map]

/-- Whether a piece has the tag of a wave. -/
def hasTag (wave : Wave) (piece : List (List Char)) : Bool :=
  piece.head? == some (tagLine wave)

/-- The blocks of one wave in an output, in order. -/
def blocksOf (wave : Wave) (output : String) : List String :=
  ((pieces output).filter (hasTag wave)).map pieceText

end Fit

namespace Entry

open Fit

/-- The lines of a block as it stands in an output. -/
def rows (entry : Entry) : List (List Char) := Text.lines entry.text.toList

variable {entry : Entry} {entries : List Entry}

theorem exists_body (tagged : entry.tagged = true) :
    ∃ rows text, Body rows text ∧ entry.text.toList = tagLine entry.wave ++ '\n' :: text := by
  obtain ⟨_, wave, block⟩ := entry
  obtain rfl : _ = true := tagged
  obtain ⟨rows, body⟩ := Body.block block
  refine ⟨_, _, body.append (.single List.not_mem_nil rfl), ?_⟩
  have split : Entry.text ⟨true, wave, block⟩ =
      ("// wave " ++ wave.text) ++ "\n" ++ block.text ++ "\n" := rfl
  simp [split, tagLine]

theorem exists_rows (tagged : entry.tagged = true) :
    ∃ rows, (∀ row ∈ rows, isTag row = false) ∧ entry.rows = tagLine entry.wave :: rows ∧
      (∀ rest, Text.lines (entry.text.toList ++ rest) = entry.rows ++ Text.lines rest) ∧
      entry.rows.flatMap (· ++ ['\n']) = entry.text.toList := by
  obtain ⟨rows, text, body, split⟩ := exists_body tagged
  have lines : ∀ rest, Text.lines (entry.text.toList ++ rest) =
      tagLine entry.wave :: rows ++ Text.lines rest := by
    intro rest
    rw [split, List.append_assoc, List.cons_append,
      Text.lines_line_append (newline_notMem_tagLine entry.wave), body.lines_append,
      List.cons_append]
  have own : entry.rows = tagLine entry.wave :: rows := by
    have whole := lines []
    rwa [List.append_nil, show Text.lines [] = [] from rfl, List.append_nil] at whole
  refine ⟨rows, body.isTag_eq_false, own, ?_, ?_⟩
  · rwa [own]
  · simp [own, split, body.flatMap_eq]

theorem pieceText_rows (tagged : entry.tagged = true) : pieceText entry.rows = entry.text := by
  obtain ⟨_, -, -, -, whole⟩ := exists_rows tagged
  apply String.toList_inj.1
  rw [toList_pieceText, whole]

theorem hasTag_rows (wave : Wave) (tagged : entry.tagged = true) :
    hasTag wave entry.rows = decide (entry.wave = wave) := by
  obtain ⟨_, -, own, -⟩ := exists_rows tagged
  simp [hasTag, own, Bool.beq_eq_decide_eq, tagLine_inj]

/-- Cutting gives back the blocks, line by line. -/
theorem pieces_transcript (tagged : ∀ entry ∈ entries, entry.tagged = true) :
    pieces (transcript entries) = entries.map rows := by
  induction entries with
  | nil => rfl
  | cons entry entries ih =>
      have others := ih fun other inside => tagged other (List.mem_cons_of_mem entry inside)
      obtain ⟨rest, plain, own, lines, -⟩ := exists_rows (tagged entry List.mem_cons_self)
      have cut : Cut (pieces (transcript entries)) := by
        rw [others]
        cases entries with
        | nil => nofun
        | cons next entries =>
            obtain ⟨rest, -, own, -⟩ := exists_rows (tagged next (by simp))
            rintro _ ⟨⟩
            exact ⟨_, rest, own, isTag_tagLine next.wave⟩
      have text : (transcript (entry :: entries)).toList =
          entry.text.toList ++ (transcript entries).toList := by
        simp [transcript, String.join_cons]
      rw [pieces, text, lines, List.foldr_append, own, List.foldr_cons]
      refine (consPiece_foldr cut plain _).trans ?_
      rw [others, List.map_cons, own]

theorem map_pieceText_transcript (tagged : ∀ entry ∈ entries, entry.tagged = true) :
    (pieces (transcript entries)).map pieceText = entries.map text := by
  rw [pieces_transcript tagged, List.map_map]
  exact List.map_congr_left fun entry inside => pieceText_rows (tagged entry inside)

theorem blocksOf_transcript (wave : Wave) (tagged : ∀ entry ∈ entries, entry.tagged = true) :
    blocksOf wave (transcript entries) = (entries.filter (·.wave = wave)).map text := by
  rw [blocksOf, pieces_transcript tagged, List.filter_map, List.map_map]
  have same : entries.filter (hasTag wave ∘ rows) = entries.filter (·.wave = wave) :=
    List.filter_congr fun entry inside => hasTag_rows wave (tagged entry inside)
  rw [same]
  exact List.map_congr_left fun entry inside =>
    pieceText_rows (tagged entry (List.mem_of_mem_filter inside))

end Entry

end WaveBus
