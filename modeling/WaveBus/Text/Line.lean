/-! # Lines and their parts

A line feed ends a line; the last line may go without. So no line of the empty
text, and one of a lone line feed. A carriage return before the line feed stays
with its line, where trimming takes it away.
-/

namespace WaveBus.Text

/-- Puts a character in front of the first line, or makes it a line of its own. -/
def consLine (c : Char) : List (List Char) → List (List Char)
  | [] => [[c]]
  | line :: rest => (c :: line) :: rest

def lines (text : List Char) : List (List Char) :=
  text.foldr (fun c rest => if c = '\n' then [] :: rest else consLine c rest) []

/-- A line feed ends the line in front of it. -/
theorem lines_line_append {line rest : List Char} (h : '\n' ∉ line) :
    lines (line ++ '\n' :: rest) = line :: lines rest := by
  induction line with
  | nil => simp [lines]
  | cons c line ih =>
      have hc : c ≠ '\n' := fun e => h (by simp [e])
      have hl : '\n' ∉ line := fun m => h (by simp [m])
      have := ih hl
      simp only [lines, List.cons_append, List.foldr_cons, if_neg hc] at this ⊢
      rw [this]
      rfl

/-- What stands before and behind the first `mark`. -/
def splitAt? (mark : Char) (text : List Char) : Option (List Char × List Char) :=
  match text.dropWhile (· != mark) with
  | [] => none
  | _ :: behind => some (text.takeWhile (· != mark), behind)

theorem splitAt?_append {mark : Char} {before behind : List Char} (h : mark ∉ before) :
    splitAt? mark (before ++ mark :: behind) = some (before, behind) := by
  have hb : ∀ c ∈ before, (c != mark) = true := fun c hc =>
    bne_iff_ne.2 fun e => h (by rw [← e]; exact hc)
  simp [splitAt?, List.dropWhile_append_of_pos hb, List.takeWhile_append_of_pos hb]

theorem splitAt?_of_notMem {mark : Char} {text : List Char} (h : mark ∉ text) :
    splitAt? mark text = none := by
  have passed : ∀ c ∈ text, (c != mark) = true := by
    intro c hc
    exact bne_iff_ne.2 fun same => h (same ▸ hc)
  rw [splitAt?, ← List.append_nil text, List.dropWhile_append_of_pos passed]
  rfl

/-- Takes `start` off a text that begins with it. -/
def dropStart (start text : List Char) : List Char :=
  if start.isPrefixOf text then text.drop start.length else text

theorem dropStart_eq_iff {start text rest : List Char} :
    dropStart start text = rest ↔ text = start ++ rest ∨ text = rest ∧ ¬ start <+: text := by
  rw [dropStart]
  split
  next begins =>
    obtain ⟨behind, rfl⟩ := List.isPrefixOf_iff_prefix.1 begins
    simp
  next other =>
    have other : ¬ start <+: text := fun begins => other (List.isPrefixOf_iff_prefix.2 begins)
    constructor
    · intro h
      exact .inr ⟨h, other⟩
    · rintro (rfl | ⟨h, -⟩)
      · exact absurd (List.prefix_append start rest) other
      · exact h

/-- The parts between the marks: always one more than there are marks. -/
def splitAll (mark : Char) (text : List Char) : List (List Char) :=
  text.foldr (fun c parts => if c = mark then [] :: parts else consLine c parts) [[]]

theorem splitAll_of_notMem {mark : Char} {text : List Char} (h : mark ∉ text) :
    splitAll mark text = [text] := by
  induction text with
  | nil => rfl
  | cons c text ih =>
      obtain ⟨other, rest⟩ := List.ne_and_not_mem_of_not_mem_cons h
      have := ih rest
      simp only [splitAll, List.foldr_cons, if_neg other.symm] at this ⊢
      rw [this]
      rfl

/-- The first mark ends the first part. -/
theorem splitAll_append {mark : Char} {before behind : List Char} (h : mark ∉ before) :
    splitAll mark (before ++ mark :: behind) = before :: splitAll mark behind := by
  induction before with
  | nil => simp [splitAll]
  | cons c before ih =>
      obtain ⟨other, rest⟩ := List.ne_and_not_mem_of_not_mem_cons h
      have := ih rest
      simp only [splitAll, List.cons_append, List.foldr_cons, if_neg other.symm] at this ⊢
      rw [this]
      rfl

end WaveBus.Text
