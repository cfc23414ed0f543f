import WaveBus.Literal

/-! # The grammar of number literals

What a literal is made of: a sign, one of the words for the values that have no digits, or
digits with at most one point among them and an exponent. Reading a literal accepts these texts
and no others, and gives each the number that its parts stand for.
-/

namespace WaveBus.Literal

/-- A sign or none. The flag tells whether it is a minus. -/
inductive SignText : List Char → Bool → Prop where
  | none : SignText [] false
  | plus : SignText ['+'] false
  | minus : SignText ['-'] true

/-- An exponent or none. -/
inductive ExponentText : List Char → Int → Prop where
  | none : ExponentText [] 0
  | raised {mark : Char} {sign digits : List Char} {negative : Bool}
      (marked : mark = 'e' ∨ mark = 'E') (signed : SignText sign negative)
      (filled : digits ≠ []) (all : ∀ c ∈ digits, c.isDigit = true) :
      ExponentText (mark :: (sign ++ digits))
        (if negative then -(exponentSize digits : Int) else exponentSize digits)

/-- The digits in front of a point and behind it. The point may be left out. -/
inductive PointText : List Char → List Char → List Char → Prop where
  | whole {whole : List Char} : PointText whole whole []
  | pointed {whole part : List Char} : PointText (whole ++ '.' :: part) whole part

/-- A literal without its sign. -/
inductive MagnitudeText : List Char → Decimal → Prop where
  | intro {text exponent whole part : List Char} {power : Int} (point : PointText text whole part)
      (all_whole : ∀ c ∈ whole, c.isDigit = true) (all_part : ∀ c ∈ part, c.isDigit = true)
      (filled : whole ≠ [] ∨ part ≠ []) (raised : ExponentText exponent power) :
      MagnitudeText (text ++ exponent)
        ⟨Nat.ofDigitChars 10 (whole ++ part) 0, power - part.length⟩

/-- A literal with what it stands for. -/
inductive Denotes : List Char → Literal → Prop where
  | infinite {sign word : List Char} {negative : Bool} (signed : SignText sign negative)
      (word_eq : word.map Char.toLower = "inf".toList ∨
        word.map Char.toLower = "infinity".toList) :
      Denotes (sign ++ word) (.infinite negative)
  | notANumber {sign word : List Char} {negative : Bool} (signed : SignText sign negative)
      (word_eq : word.map Char.toLower = "nan".toList) :
      Denotes (sign ++ word) .notANumber
  | finite {sign body : List Char} {negative : Bool} {d : Decimal}
      (signed : SignText sign negative) (magnitude : MagnitudeText body d) :
      Denotes (sign ++ body) (.finite negative d)

/-! ## Signs -/

theorem exists_signText (text : List Char) :
    ∃ before, text = before ++ (sign text).2 ∧ SignText before (sign text).1 := by
  unfold sign
  split
  next rest => exact ⟨['-'], rfl, .minus⟩
  next rest => exact ⟨['+'], rfl, .plus⟩
  next => exact ⟨[], rfl, .none⟩

/-- A text that a sign can stand in front of, since it does not begin with one. -/
def Unsigned (text : List Char) : Prop := ∀ c ∈ text.head?, c ≠ '+' ∧ c ≠ '-'

theorem sign_append {before text : List Char} {negative : Bool} (signed : SignText before negative)
    (unsigned : Unsigned text) : sign (before ++ text) = (negative, text) := by
  cases signed with
  | plus => rfl
  | minus => rfl
  | none =>
      cases text with
      | nil => rfl
      | cons c rest =>
          obtain ⟨plus, minus⟩ := unsigned c rfl
          simp [sign, plus, minus]

theorem unsigned_of_isDigit {digits : List Char} (filled : digits ≠ [])
    (all : ∀ c ∈ digits, c.isDigit = true) : Unsigned digits := by
  cases digits with
  | nil => exact absurd rfl filled
  | cons c digits =>
      have digit := all c List.mem_cons_self
      rintro d ⟨⟩
      constructor <;> rintro rfl <;> exact absurd digit (by decide)

/-! ## Exponents -/

theorem exponent?_eq_some_iff {text : List Char} {power : Int} :
    exponent? text = some power ↔ ExponentText text power := by
  constructor
  · intro h
    cases text with
    | nil =>
        cases h
        exact .none
    | cons mark rest =>
        obtain ⟨before, split, signed⟩ := exists_signText rest
        simp only [exponent?, Option.ite_none_right_eq_some, Bool.and_eq_true, Bool.or_eq_true,
          beq_iff_eq, Bool.not_eq_true', List.isEmpty_eq_false_iff, List.all_eq_true] at h
        obtain ⟨⟨⟨marked, filled⟩, all⟩, value⟩ := h
        cases value
        have raised := ExponentText.raised marked signed filled all
        rwa [← split] at raised
  · intro h
    cases h with
    | none => rfl
    | @raised mark before digits negative marked signed filled all =>
        have unsigned := unsigned_of_isDigit filled all
        simpa [exponent?, sign_append signed unsigned, marked, filled] using all

/-- An exponent begins with a letter. -/
theorem ExponentText.head {text : List Char} {power : Int} (h : ExponentText text power) :
    ∀ c ∈ text.head?, c = 'e' ∨ c = 'E' := by
  cases h with
  | none => nofun
  | raised marked =>
      rintro c ⟨⟩
      exact marked

/-! ## Magnitudes -/

section Digits

variable {digits rest : List Char}

theorem takeWhile_isDigit (all : ∀ c ∈ digits, c.isDigit = true)
    (stop : ∀ c ∈ rest.head?, c.isDigit = false) :
    (digits ++ rest).takeWhile Char.isDigit = digits := by
  rw [List.takeWhile_append_of_pos all]
  cases rest with
  | nil => simp
  | cons c rest => simp [stop c rfl]

theorem dropWhile_isDigit (all : ∀ c ∈ digits, c.isDigit = true)
    (stop : ∀ c ∈ rest.head?, c.isDigit = false) :
    (digits ++ rest).dropWhile Char.isDigit = rest := by
  rw [List.dropWhile_append_of_pos all]
  cases rest with
  | nil => rfl
  | cons c rest => simp [stop c rfl]

end Digits

theorem isDigit_of_mem_takeWhile {text : List Char} :
    ∀ c ∈ text.takeWhile Char.isDigit, c.isDigit = true :=
  List.all_eq_true.1 List.all_takeWhile

theorem fraction_of_head {text : List Char} (h : ∀ c ∈ text.head?, c ≠ '.') :
    fraction text = ([], text) := by
  cases text with
  | nil => rfl
  | cons c rest =>
      have other := h c rfl
      simp [fraction, other]

/-- What is left of a text behind a fraction, and what stood in front of that. -/
theorem exists_pointText (whole text : List Char) :
    ∃ mantissa, whole ++ text = mantissa ++ (fraction text).2 ∧
      PointText mantissa whole (fraction text).1 ∧ ∀ c ∈ (fraction text).1, c.isDigit = true := by
  unfold fraction
  split
  next rest =>
    refine ⟨whole ++ '.' :: rest.takeWhile Char.isDigit, ?_, .pointed, isDigit_of_mem_takeWhile⟩
    simp
  next => exact ⟨whole, rfl, .whole, nofun⟩

/-- A point and digits are split off again if neither can go on behind them. -/
theorem PointText.split {text whole part rest : List Char} (point : PointText text whole part)
    (all_whole : ∀ c ∈ whole, c.isDigit = true) (all_part : ∀ c ∈ part, c.isDigit = true)
    (stop : ∀ c ∈ rest.head?, c.isDigit = false) (noPoint : ∀ c ∈ rest.head?, c ≠ '.') :
    (text ++ rest).takeWhile Char.isDigit = whole ∧
      fraction ((text ++ rest).dropWhile Char.isDigit) = (part, rest) := by
  cases point with
  | whole =>
      rw [takeWhile_isDigit all_whole stop, dropWhile_isDigit all_whole stop]
      exact ⟨rfl, fraction_of_head noPoint⟩
  | pointed =>
      have point : ∀ c ∈ ('.' :: (part ++ rest)).head?, c.isDigit = false := by
        rintro c ⟨⟩
        rfl
      rw [List.append_assoc, List.cons_append, takeWhile_isDigit all_whole point,
        dropWhile_isDigit all_whole point, fraction, takeWhile_isDigit all_part stop,
        dropWhile_isDigit all_part stop]
      exact ⟨rfl, rfl⟩

theorem magnitude?_eq_some_iff {text : List Char} {d : Decimal} :
    magnitude? text = some d ↔ MagnitudeText text d := by
  constructor
  · intro h
    obtain ⟨mantissa, split, point, all_part⟩ :=
      exists_pointText (text.takeWhile Char.isDigit) (text.dropWhile Char.isDigit)
    rw [List.takeWhile_append_dropWhile] at split
    simp only [magnitude?, Option.ite_none_left_eq_some, Bool.and_eq_true, List.isEmpty_iff,
      Decidable.not_and_iff_or_not, Option.map_eq_some_iff] at h
    obtain ⟨filled, power, raised, value⟩ := h
    cases value
    have whole := MagnitudeText.intro point isDigit_of_mem_takeWhile all_part filled
      (exponent?_eq_some_iff.1 raised)
    rwa [← split] at whole
  · intro h
    cases h with
    | @intro mantissa exponent whole part power point all_whole all_part filled raised =>
        obtain ⟨digits, behind⟩ := point.split all_whole all_part
          (fun c hc => by rcases raised.head c hc with rfl | rfl <;> rfl)
          (fun c hc => by rcases raised.head c hc with rfl | rfl <;> decide)
        have some : (whole.isEmpty && part.isEmpty) = false := by
          simpa [Decidable.imp_iff_not_or] using filled
        rw [magnitude?, digits, behind]
        simp [some, exponent?_eq_some_iff.2 raised]

/-- A magnitude begins with a digit or with the point. -/
theorem MagnitudeText.head {text : List Char} {d : Decimal} (h : MagnitudeText text d) :
    ∃ c rest, text = c :: rest ∧ (c.isDigit = true ∨ c = '.') := by
  cases h with
  | @intro mantissa exponent whole part power point all_whole all_part filled raised =>
      cases whole with
      | cons c whole =>
          have digit := all_whole c List.mem_cons_self
          cases point with
          | whole => exact ⟨c, _, rfl, .inl digit⟩
          | pointed => exact ⟨c, _, rfl, .inl digit⟩
      | nil =>
          cases point with
          | whole => simp at filled
          | pointed => exact ⟨'.', _, rfl, .inr rfl⟩

theorem MagnitudeText.unsigned {text : List Char} {d : Decimal} (h : MagnitudeText text d) :
    Unsigned text := by
  obtain ⟨c, rest, rfl, begins⟩ := h.head
  rintro d ⟨⟩
  rcases begins with digit | rfl
  · constructor <;> rintro rfl <;> exact absurd digit (by decide)
  · decide

/-! ## Literals -/

theorem toLower_of_isDigit {c : Char} (h : c.isDigit = true) : c.toLower = c := by
  simp only [Char.isDigit, Bool.and_eq_true, decide_eq_true_eq] at h
  exact dif_neg fun capital => absurd (UInt32.le_trans capital.1 h.2) (by decide)

/-- A magnitude does not begin with the letter of a word. -/
theorem MagnitudeText.ne_word {text : List Char} {d : Decimal} (h : MagnitudeText text d)
    {first : Char} (digit : first.isDigit = false) (point : first ≠ '.') (word : List Char) :
    text.map Char.toLower ≠ first :: word := by
  obtain ⟨c, rest, rfl, begins⟩ := h.head
  intro same
  rw [List.map_cons, List.cons.injEq] at same
  rcases begins with figure | rfl
  · rw [toLower_of_isDigit figure] at same
    rw [← same.1, figure] at digit
    cases digit
  · exact point same.1.symm

theorem unsigned_of_word {text word : List Char} {first : Char}
    (h : text.map Char.toLower = first :: word) (plus : first ≠ '+') (minus : first ≠ '-') :
    Unsigned text := by
  cases text with
  | nil => cases h
  | cons c text =>
      rw [List.map_cons, List.cons.injEq] at h
      rintro d ⟨⟩
      constructor <;> rintro rfl
      · exact plus h.1.symm
      · exact minus h.1.symm

theorem read?_eq_some_iff {text : List Char} {literal : Literal} :
    read? text = some literal ↔ Denotes text literal := by
  constructor
  · intro h
    obtain ⟨before, split, signed⟩ := exists_signText text
    rw [split]
    simp only [read?, Bool.or_eq_true, beq_iff_eq] at h
    split at h
    next word =>
      cases h
      exact .infinite signed word
    next =>
      split at h
      next word =>
        cases h
        exact .notANumber signed word
      next =>
        obtain ⟨d, magnitude, rfl⟩ := Option.map_eq_some_iff.1 h
        exact .finite signed (magnitude?_eq_some_iff.1 magnitude)
  · intro h
    cases h with
    | infinite signed word =>
        rcases word with word | word
        · have unsigned := unsigned_of_word word (by decide) (by decide)
          simp [read?, sign_append signed unsigned, word]
        · have unsigned := unsigned_of_word word (by decide) (by decide)
          simp [read?, sign_append signed unsigned, word]
    | notANumber signed word =>
        have unsigned := unsigned_of_word word (by decide) (by decide)
        rw [read?, sign_append signed unsigned]
        dsimp only
        rw [word]
        rfl
    | finite signed magnitude =>
        have inf := @MagnitudeText.ne_word _ _ magnitude 'i' rfl (by decide)
        have nan := @MagnitudeText.ne_word _ _ magnitude 'n' rfl (by decide)
        simp [read?, sign_append signed magnitude.unsigned, inf, nan,
          magnitude?_eq_some_iff.2 magnitude]

theorem read?_eq_none_iff {text : List Char} :
    read? text = none ↔ ∀ literal, ¬ Denotes text literal := by
  simp only [Option.eq_none_iff_forall_ne_some, ne_eq, read?_eq_some_iff]

end WaveBus.Literal
