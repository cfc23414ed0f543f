import WaveBus.Params.Text
import WaveBus.Proofs.Number.Grammar
import WaveBus.Proofs.Text.Trim

/-! # Lines of parameters

A line is a remark, or it assigns a number to a field, or it has a defect, and it is one of the
three only. Of several defects the leftmost counts: an equals sign that is missing, then a name
that no field has, then a value that is no number.
-/

namespace WaveBus.Params

open Text

/-! ## Names -/

/-- The names of a field: the one under which it is written, and that without its underscore. -/
def Field.spellings : Field → List String
  | .bias => ["bias"]
  | .pulseStrength => ["pulse_strength", "pulsestrength"]
  | .topBit => ["top_bit", "topbit"]
  | .distance => ["distance"]
  | .stMix => ["st_mix", "stmix"]

theorem ofName?_eq_some_iff {name : String} {field : Field} :
    Field.ofName? name = some field ↔ name ∈ field.spellings := by
  constructor
  · intro h
    unfold Field.ofName? at h
    split at h <;> cases h <;> decide
  · intro h
    cases field <;> simp only [Field.spellings, List.mem_cons, List.not_mem_nil, or_false] at h
    all_goals rcases h with rfl | rfl <;> rfl

theorem ofName?_eq_none_iff {name : String} :
    Field.ofName? name = none ↔ ∀ field : Field, name ∉ field.spellings := by
  simp only [Option.eq_none_iff_forall_ne_some, ne_eq, ofName?_eq_some_iff]

/-- What may stand in front of a name. -/
def scope : List Char := "bestparams.".toList

/-- A key with the name that is in it. One `bestparams.` in front of the name is left out. -/
inductive Names : List Char → List Char → Prop where
  | qualified {key name : List Char} (padded : Padded key (scope ++ name)) : Names key name
  | bare {key name : List Char} (padded : Padded key name) (plain : ¬ scope <+: name) :
      Names key name

theorem bareName_eq_iff {key name : List Char} : bareName key = name ↔ Names key name := by
  rw [bareName, dropStart_eq_iff]
  constructor
  · rintro (trimmed | ⟨trimmed, plain⟩)
    · exact .qualified (trim_eq_iff.1 trimmed)
    · exact .bare (trim_eq_iff.1 trimmed) (trimmed ▸ plain)
  · intro h
    cases h with
    | qualified padded => exact .inl (trim_eq_iff.2 padded)
    | bare padded plain =>
        have trimmed := trim_eq_iff.2 padded
        exact .inr ⟨trimmed, trimmed.symm ▸ plain⟩

/-! ## Values -/

/-- The last character is a digit or a point. -/
def EndsInFigure (text : List Char) : Prop := ∃ c ∈ text.getLast?, c.isDigit = true ∨ c = '.'

/-- A value without the `f` that ends it, provided that this directly follows a figure. -/
inductive Unsuffixed : List Char → List Char → Prop where
  | suffixed {value : List Char} (figure : EndsInFigure value) : Unsuffixed (value ++ ['f']) value
  | plain {value : List Char} (h : ∀ before, value = before ++ ['f'] → ¬ EndsInFigure before) :
      Unsuffixed value value

theorem dropSuffix_append_f {before : List Char} (figure : EndsInFigure before) :
    dropSuffix (before ++ ['f']) = before := by
  obtain ⟨c, last, h⟩ := figure
  obtain ⟨front, rfl⟩ := List.getLast?_eq_some_iff.1 last
  simp [dropSuffix, h]

theorem dropSuffix_of_plain {value : List Char}
    (h : ∀ before, value = before ++ ['f'] → ¬ EndsInFigure before) : dropSuffix value = value := by
  unfold dropSuffix
  split
  next c before reversed =>
    have split : value = (c :: before).reverse ++ ['f'] := by
      simpa using congrArg List.reverse reversed
    have word := h _ split
    have last : c ∈ (c :: before).reverse.getLast? := by simp
    have noFigure : (c.isDigit || c == '.') = false := by
      simpa [EndsInFigure] using word
    rw [noFigure]
    rfl
  next => rfl

theorem dropSuffix_eq_iff {text value : List Char} :
    dropSuffix text = value ↔ Unsuffixed text value := by
  constructor
  · rintro rfl
    by_cases h : ∀ before, text = before ++ ['f'] → ¬ EndsInFigure before
    · rw [dropSuffix_of_plain h]
      exact .plain h
    · simp only [Classical.not_forall, Classical.not_not] at h
      obtain ⟨before, rfl, figure⟩ := h
      rw [dropSuffix_append_f figure]
      exact .suffixed figure
  · intro h
    cases h with
    | suffixed figure => exact dropSuffix_append_f figure
    | plain h => exact dropSuffix_of_plain h

/-- What stands behind an equals sign with the value that is in it: blanks around the value and
    around the semicolons that end it, and perhaps an `f`. -/
inductive Values : List Char → List Char → Prop where
  | intro {part body semicolons core value : List Char} (padded : Padded part (body ++ semicolons))
      (run : ∀ c ∈ semicolons, c = ';') (stop : ∀ c ∈ body.getLast?, c ≠ ';')
      (trimmed : Padded body core) (unsuffixed : Unsuffixed core value) : Values part value

theorem bareValue_eq_iff {part value : List Char} :
    bareValue part = value ↔ Values part value := by
  constructor
  · intro h
    obtain ⟨semicolons, split, run, stop⟩ :=
      dropEndWhile_eq_iff.1 (Eq.refl (dropEndWhile (· == ';') (trim part)))
    exact .intro (trim_eq_iff.1 split) (by simpa using run) (by simpa using stop) (padded_trim _)
      (dropSuffix_eq_iff.1 h)
  · intro h
    cases h with
    | @intro body semicolons core _ padded run stop trimmed unsuffixed =>
        have bare : dropEndWhile (· == ';') (body ++ semicolons) = body :=
          dropEndWhile_eq_iff.2 ⟨semicolons, rfl, by simpa using run, by simpa using stop⟩
        rw [bareValue, trim_eq_iff.2 padded, bare, trim_eq_iff.2 trimmed,
          dropSuffix_eq_iff.2 unsuffixed]

/-! ## Lines -/

/-- A line that is blank, or a comment. -/
def Remark (line : List Char) : Prop :=
  ∃ core, Padded line core ∧ (core = [] ∨ ['/', '/'] <+: core)

/-- A line with a core that is no remark. -/
structure Content (line core : List Char) : Prop where
  padded : Padded line core
  filled : core ≠ []
  spoken : ¬ ['/', '/'] <+: core

/-- A line with an equals sign, and what stands before and behind the first. -/
structure Splits (line key part : List Char) : Prop where
  content : Content line (key ++ '=' :: part)
  first : '=' ∉ key

/-- A line that gives a number to a field. -/
inductive Assigns (line : List Char) (field : Field) : Float32 → Prop where
  | intro {key part name value : List Char} {literal : Literal} (splits : Splits line key part)
      (names : Names key name) (known : String.ofList name ∈ field.spellings)
      (values : Values part value) (denotes : Literal.Denotes value literal) :
      Assigns line field literal.toSingle

/-- What is wrong with a line. For a fault in the value all that stands before it is in order. -/
inductive Faulty (line : List Char) : Defect → Prop where
  | noAssignment {core : List Char} (content : Content line core) (none : '=' ∉ core) :
      Faulty line (.noAssignment (String.ofList core))
  | unknownParameter {key part name : List Char} (splits : Splits line key part)
      (names : Names key name) (unknown : ∀ field : Field, String.ofList name ∉ field.spellings) :
      Faulty line (.unknownParameter (String.ofList name))
  | notNumber {key part name value : List Char} {field : Field} (splits : Splits line key part)
      (names : Names key name) (known : String.ofList name ∈ field.spellings)
      (values : Values part value) (unread : ∀ literal, ¬ Literal.Denotes value literal) :
      Faulty line (.notNumber (String.ofList value))

variable {line : List Char}

theorem isRemark_eq_true_iff {core : List Char} :
    isRemark core = true ↔ core = [] ∨ ['/', '/'] <+: core := by
  simp only [isRemark, Bool.or_eq_true, List.isEmpty_iff, List.isPrefixOf_iff_prefix]

theorem remark_iff : Remark line ↔ isRemark (trim line) = true := by
  rw [isRemark_eq_true_iff]
  constructor
  · rintro ⟨core, padded, h⟩
    rwa [trim_eq_iff.2 padded]
  · intro h
    exact ⟨trim line, padded_trim line, h⟩

theorem content_iff {core : List Char} :
    Content line core ↔ trim line = core ∧ isRemark core = false := by
  rw [Bool.eq_false_iff, ne_eq, isRemark_eq_true_iff, not_or]
  constructor
  · rintro ⟨padded, filled, spoken⟩
    exact ⟨trim_eq_iff.2 padded, filled, spoken⟩
  · rintro ⟨trimmed, filled, spoken⟩
    exact ⟨trim_eq_iff.1 trimmed, filled, spoken⟩

theorem Content.trim_eq {core : List Char} (h : Content line core) : trim line = core :=
  (content_iff.1 h).1

theorem Content.isRemark_trim {core : List Char} (h : Content line core) :
    isRemark (trim line) = false :=
  h.trim_eq ▸ (content_iff.1 h).2

theorem assignment_of_assigns {field : Field} {number : Float32}
    (h : Assigns line field number) : assignment (trim line) = .ok (field, number) := by
  cases h with
  | intro splits names known values denotes =>
      simp only [splits.content.trim_eq, assignment, splitAt?_append splits.first,
        bareName_eq_iff.2 names, ofName?_eq_some_iff.2 known, bareValue_eq_iff.2 values,
        Literal.read?_eq_some_iff.2 denotes]

theorem assignment_of_faulty {defect : Defect} (h : Faulty line defect) :
    assignment (trim line) = .error defect := by
  cases h with
  | noAssignment content none =>
      simp only [content.trim_eq, assignment, splitAt?_of_notMem none]
  | unknownParameter splits names unknown =>
      simp only [splits.content.trim_eq, assignment, splitAt?_append splits.first,
        bareName_eq_iff.2 names, ofName?_eq_none_iff.2 unknown]
  | notNumber splits names known values unread =>
      simp only [splits.content.trim_eq, assignment, splitAt?_append splits.first,
        bareName_eq_iff.2 names, ofName?_eq_some_iff.2 known, bareValue_eq_iff.2 values,
        Literal.read?_eq_none_iff.2 unread]

theorem Assigns.isRemark_trim {field : Field} {number : Float32} (h : Assigns line field number) :
    isRemark (trim line) = false := by
  cases h with
  | intro splits => exact splits.content.isRemark_trim

theorem Faulty.isRemark_trim {defect : Defect} (h : Faulty line defect) :
    isRemark (trim line) = false := by
  cases h with
  | noAssignment content => exact content.isRemark_trim
  | unknownParameter splits => exact splits.content.isRemark_trim
  | notNumber splits => exact splits.content.isRemark_trim

/-- A line gives one number, to one field. -/
theorem Assigns.unique {field field' : Field} {number number' : Float32}
    (h : Assigns line field number) (h' : Assigns line field' number') :
    field = field' ∧ number = number' := by
  have same := (assignment_of_assigns h).symm.trans (assignment_of_assigns h')
  cases same
  exact ⟨rfl, rfl⟩

theorem Remark.not_assigns {field : Field} {number : Float32} (remark : Remark line) :
    ¬ Assigns line field number := by
  intro assigns
  cases assigns.isRemark_trim.symm.trans (remark_iff.1 remark)

/-! ## What reading does with a line -/

theorem readLine_of_remark (params : Params) (remark : Remark line) :
    params.readLine line = .ok params := by
  rw [readLine, remark_iff.1 remark]
  rfl

theorem readLine_of_assigns (params : Params) {field : Field} {number : Float32}
    (h : Assigns line field number) : params.readLine line = .ok (params.set field number) := by
  rw [readLine, h.isRemark_trim, assignment_of_assigns h]
  rfl

theorem readLine_of_faulty (params : Params) {defect : Defect} (h : Faulty line defect) :
    params.readLine line = .error defect := by
  rw [readLine, h.isRemark_trim, assignment_of_faulty h]
  rfl

/-! ## Judgement -/

/-- A line with which nothing is wrong. -/
def Sound (line : List Char) : Prop :=
  Remark line ∨ ∃ field number, Assigns line field number

theorem Splits.judged {key part : List Char} (splits : Splits line key part) :
    Sound line ∨ ∃ defect, Faulty line defect := by
  have names : Names key (bareName key) := bareName_eq_iff.1 rfl
  have values : Values part (bareValue part) := bareValue_eq_iff.1 rfl
  cases known : Field.ofName? (String.ofList (bareName key)) with
  | none => exact .inr ⟨_, .unknownParameter splits names (ofName?_eq_none_iff.1 known)⟩
  | some field =>
      have known := ofName?_eq_some_iff.1 known
      cases reads : Literal.read? (bareValue part) with
      | none =>
          have unread := Literal.read?_eq_none_iff.1 reads
          exact .inr ⟨_, .notNumber splits names known values unread⟩
      | some literal =>
          have denotes := Literal.read?_eq_some_iff.1 reads
          exact .inl (.inr ⟨_, _, .intro splits names known values denotes⟩)

/-- No line is without a judgement. -/
theorem judged (line : List Char) : Sound line ∨ ∃ defect, Faulty line defect := by
  cases remark : isRemark (trim line) with
  | true => exact .inl (.inl (remark_iff.2 remark))
  | false =>
      have content : Content line (trim line) := content_iff.2 ⟨rfl, remark⟩
      by_cases inside : '=' ∈ trim line
      · obtain ⟨key, part, split, first⟩ := List.eq_append_cons_of_mem inside
        exact Splits.judged ⟨split ▸ content, first⟩
      · exact .inr ⟨_, .noAssignment content inside⟩

/-- No line is both. -/
theorem Faulty.not_sound {defect : Defect} (h : Faulty line defect) : ¬ Sound line := by
  rintro (remark | ⟨field, number, assigns⟩)
  · have same := (readLine_of_remark zero remark).symm.trans (readLine_of_faulty zero h)
    cases same
  · have same := (readLine_of_assigns zero assigns).symm.trans (readLine_of_faulty zero h)
    cases same

end WaveBus.Params
