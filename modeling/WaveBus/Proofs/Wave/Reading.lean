import WaveBus.Proofs.Text.Trim
import WaveBus.Wave

/-! # Texts that name a wave

A wave is named by any numeral for its code, with blanks around it. Of a text that names none the
fault quotes a number, if there is a numeral for a byte in it, and else what is in it as it
stands. Every text is one or the other, so the two say what each of them is read as.
-/

namespace WaveBus.Wave

open Numeral (Denotes)
open Text (Padded isBlank)

variable {wave : Wave} {fault : Fault} {text core : List Char} {number : Nat} {quote : String}

/-- A numeral for the code of a wave, of any length, and blanks around it. -/
inductive Names (wave : Wave) : List Char → Prop where
  | intro {text core : List Char} (padded : Padded text core) (denotes : Denotes core wave.code) :
      Names wave text

/-- A text that names no wave, and what is quoted of it. -/
inductive Quoted : List Char → String → Prop where
  /-- A numeral for a byte is quoted without its sign and its leading zeros. -/
  | value {text core : List Char} {number : Nat} (padded : Padded text core)
      (denotes : Denotes core number) (byte : number ≤ 255)
      (unknown : ∀ wave : Wave, wave.code ≠ number) : Quoted text (toString number)
  /-- No numeral, or one that is too large for a byte. -/
  | text {text core : List Char} (padded : Padded text core)
      (unread : ∀ number, Denotes core number → 255 < number) : Quoted text (String.ofList core)

/-! ## Codes -/

theorem code_le (wave : Wave) : wave.code ≤ 255 := by
  cases wave <;> decide

theorem ofCode_of_unknown (unknown : ∀ wave : Wave, wave.code ≠ number) :
    ofCode number = .error (.invalidWave (toString number)) := by
  have none : all.find? (·.code == number) = none :=
    List.find?_eq_none.2 fun wave _ same => unknown wave (beq_iff_eq.1 same)
  rw [ofCode, none]

/-! ## Texts -/

theorem parse_of_numeral (padded : Padded text core) (denotes : Denotes core number)
    (byte : number ≤ 255) : parse text = ofCode number := by
  have read := Numeral.readBelow?_eq_some_iff.2 ⟨denotes, Nat.lt_succ_of_le byte⟩
  simp only [parse, Text.trim_eq_iff.2 padded, read]

theorem parse_of_names (h : Names wave text) : parse text = .ok wave := by
  cases h with
  | intro padded denotes => rw [parse_of_numeral padded denotes wave.code_le, ofCode_code]

theorem parse_of_quoted (h : Quoted text quote) : parse text = .error (.invalidWave quote) := by
  cases h with
  | value padded denotes byte unknown =>
      rw [parse_of_numeral padded denotes byte, ofCode_of_unknown unknown]
  | text padded unread =>
      have none := Numeral.readBelow?_eq_none_iff.2 unread
      simp only [parse, Text.trim_eq_iff.2 padded, none]

theorem names_or_quoted (text : List Char) :
    (∃ wave, Names wave text) ∨ ∃ quote, Quoted text quote := by
  have padded := Text.padded_trim text
  by_cases byte : ∃ number ≤ 255, Denotes (Text.trim text) number
  · obtain ⟨number, small, denotes⟩ := byte
    by_cases known : ∃ wave : Wave, wave.code = number
    · obtain ⟨wave, rfl⟩ := known
      exact .inl ⟨wave, .intro padded denotes⟩
    · exact .inr ⟨_, .value padded denotes small fun wave same => known ⟨wave, same⟩⟩
  · exact .inr ⟨_, .text padded fun number denotes =>
      Nat.lt_of_not_le fun small => byte ⟨number, small, denotes⟩⟩

theorem parse_eq_ok_iff : parse text = .ok wave ↔ Names wave text := by
  refine ⟨fun h => ?_, parse_of_names⟩
  rcases names_or_quoted text with ⟨other, names⟩ | ⟨quote, quoted⟩
  · cases h.symm.trans (parse_of_names names)
    exact names
  · cases h.symm.trans (parse_of_quoted quoted)

theorem parse_eq_error_iff :
    parse text = .error fault ↔ ∃ quote, Quoted text quote ∧ fault = .invalidWave quote := by
  constructor
  · intro h
    rcases names_or_quoted text with ⟨wave, names⟩ | ⟨quote, quoted⟩
    · cases h.symm.trans (parse_of_names names)
    · cases h.symm.trans (parse_of_quoted quoted)
      exact ⟨quote, quoted, rfl⟩
  · rintro ⟨quote, quoted, rfl⟩
    exact parse_of_quoted quoted

/-- The text of a wave is one of its names. -/
theorem names_text (wave : Wave) : Names wave wave.text.toList := by
  have unblank : wave.text.toList.any isBlank = false := by cases wave <;> decide
  have visible : ∀ c ∈ wave.text.toList, isBlank c = false := fun c inside =>
    eq_false_of_ne_true (List.any_eq_false.1 unblank c inside)
  have digits : wave.text.toList = Nat.toDigits 10 wave.code := Nat.toList_repr
  refine .intro (Text.padded_of_visible visible) (Numeral.read?_eq_some_iff.1 ?_)
  rw [digits, Numeral.read?_toDigits]

theorem Names.append {before after : List Char} (h : Names wave text)
    (blank : ∀ c ∈ before, isBlank c = true) (blank' : ∀ c ∈ after, isBlank c = true) :
    Names wave (before ++ (text ++ after)) := by
  cases h with
  | intro padded denotes => exact .intro (padded.append blank blank') denotes

/-- A text is read as the wave that it names, or refused with what is quoted of it. The text of a
wave is read with any blanks around it. -/
theorem parse_accepts_names (text : List Char) :
    (∀ wave, parse text = .ok wave ↔ Names wave text) ∧
    (∀ fault, parse text = .error fault ↔
      ∃ quote, Quoted text quote ∧ fault = .invalidWave quote) ∧
    ∀ (wave : Wave) (before after : List Char), (∀ c ∈ before, isBlank c = true) →
      (∀ c ∈ after, isBlank c = true) →
      parse (before ++ (wave.text.toList ++ after)) = .ok wave :=
  ⟨fun _ => parse_eq_ok_iff, fun _ => parse_eq_error_iff, fun wave _ _ blank blank' =>
    parse_of_names (wave.names_text.append blank blank')⟩

/-- A sign and leading zeros are no part of a code, and a byte that is no code is quoted without
them. What no byte can hold is quoted with them. -/
theorem parse_accepts_names_with_zeros :
    let text := "\u3000+007 ".toList
    let byte := "+004\t".toList
    let large := " +0256".toList
    (Names .pulseSawTriangle text ∧ Quoted byte "4" ∧ Quoted large "+0256" ∧
      (∀ c ∈ "\u3000\n".toList, isBlank c = true) ∧ ∀ c ∈ " ".toList, isBlank c = true) ∧
    parse text = .ok .pulseSawTriangle ∧
    parse byte = .error (.invalidWave "4") ∧
    parse large = .error (.invalidWave "+0256") ∧
    parse "\u3000\n3 ".toList = .ok .sawTriangle := by
  intro text byte large
  have seven : Padded text "+007".toList := Text.trim_eq_iff.1 (by decide)
  have names : Names .pulseSawTriangle text :=
    .intro seven (Numeral.read?_eq_some_iff.1 (by decide))
  have padded : Padded byte "+004".toList := Text.trim_eq_iff.1 (by decide)
  have four : Quoted byte (toString 4) :=
    .value padded (Numeral.read?_eq_some_iff.1 (by decide)) (by decide)
      (by rintro (_ | _) <;> decide)
  have beyond : Quoted large (String.ofList "+0256".toList) :=
    .text (Text.trim_eq_iff.1 (by decide)) (Numeral.readBelow?_eq_none_iff.1 (by decide))
  have blank : ∀ c ∈ "\u3000\n".toList, isBlank c = true := List.all_eq_true.1 (by decide)
  have blank' : ∀ c ∈ " ".toList, isBlank c = true := List.all_eq_true.1 (by decide)
  refine ⟨⟨names, four, beyond, blank, blank'⟩, ?_, ?_, ?_, ?_⟩
  · exact ((parse_accepts_names text).1 .pulseSawTriangle).2 names
  · exact ((parse_accepts_names byte).2.1 _).2 ⟨_, four, rfl⟩
  · exact ((parse_accepts_names large).2.1 _).2 ⟨_, beyond, rfl⟩
  · exact (parse_accepts_names text).2.2 .sawTriangle _ _ blank blank'

end WaveBus.Wave
