import WaveBus.Fault
import WaveBus.Text.Blank

/-! # Chips

Captures hold one column per sampled chip. A chip is named by the capital letter
of its column.
-/

namespace WaveBus

/-- A sampled chip: a column of the captures, counted from 0. -/
structure Chip where
  column : Fin 26
  deriving Repr, DecidableEq

namespace Chip

/-- The letter of the column, `A` first. -/
def letter (chip : Chip) : Char := Char.ofNat ('A'.toNat + chip.column)

instance : ToString Chip := ⟨fun chip => chip.letter.toString⟩

def ofLetter (letter : Char) : Except Fault Chip :=
  if h : letter.toNat - 'A'.toNat < 26 ∧ 'A'.toNat ≤ letter.toNat then
    .ok ⟨⟨letter.toNat - 'A'.toNat, h.1⟩⟩
  else
    .error (.invalidChip letter)

@[simp] theorem ofLetter_letter (chip : Chip) : ofLetter chip.letter = .ok chip := by
  obtain ⟨k⟩ := chip
  have h : (letter ⟨k⟩).toNat = 'A'.toNat + k := by
    revert k
    decide
  unfold ofLetter
  rw [dif_pos ⟨by omega, by omega⟩]
  congr 2
  ext
  simp [h]

/-- Reads a letter with blanks around it. Of a longer text the first character is
    blamed, of an empty one a blank. -/
def parse (text : List Char) : Except Fault Chip :=
  match Text.trim text with
  | [letter] => ofLetter letter
  | letter :: _ => .error (.invalidChip letter)
  | [] => .error (.invalidChip ' ')

end Chip

end WaveBus
