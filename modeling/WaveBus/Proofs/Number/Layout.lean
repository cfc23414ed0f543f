import WaveBus.Proofs.Number.Grammar

/-! # The layout of written numbers

Digits, perhaps a point and more digits, perhaps an exponent: what has this layout
is read as the decimal that it shows.
-/

namespace WaveBus

/-- The point and the digits behind it, if there are any. -/
def Layout.pointed : List Char → List Char
  | [] => []
  | part => '.' :: part

/-- An exponent, if there is one. -/
def Layout.raised : Option Int → List Char
  | none => []
  | some power => 'e' :: (toString power).toList

/-- A magnitude that is laid out. -/
structure Layout where
  whole : List Char
  part : List Char
  power : Option Int
  whole_ne_nil : whole ≠ []
  isDigit_whole : ∀ c ∈ whole, c.isDigit = true
  isDigit_part : ∀ c ∈ part, c.isDigit = true
  power_small : ∀ n ∈ power, n.natAbs < Literal.exponentCeiling

namespace Layout

def text (layout : Layout) : List Char :=
  layout.whole ++ (pointed layout.part ++ raised layout.power)

/-- The decimal that a layout shows. -/
def decimal (layout : Layout) : Decimal where
  significand := Nat.ofDigitChars 10 (layout.whole ++ layout.part) 0
  exponent := layout.power.getD 0 - layout.part.length

theorem le_ofDigitChars (digits : List Char) (n : Nat) : n ≤ Nat.ofDigitChars 10 digits n := by
  induction digits generalizing n with
  | nil => exact Nat.le_refl n
  | cons c digits ih =>
      rw [Nat.ofDigitChars_cons]
      exact Nat.le_trans (by omega) (ih _)

/-- Below the ceiling every digit counts. -/
theorem exponentSize_eq {digits : List Char}
    (h : Nat.ofDigitChars 10 digits 0 < Literal.exponentCeiling) :
    Literal.exponentSize digits = Nat.ofDigitChars 10 digits 0 := by
  rw [Literal.exponentSize]
  generalize 0 = n at h ⊢
  induction digits generalizing n with
  | nil => rfl
  | cons c digits ih =>
      rw [Nat.ofDigitChars_cons] at h ⊢
      have below : n < Literal.exponentCeiling := by
        have := le_ofDigitChars digits (10 * n + (c.toNat - '0'.toNat))
        omega
      rw [List.foldl_cons, if_pos below]
      exact ih _ h

theorem exponentSize_toDigits {n : Nat} (h : n < Literal.exponentCeiling) :
    Literal.exponentSize (Nat.toDigits 10 n) = n := by
  rw [exponentSize_eq, Nat.ofDigitChars_ten_toDigits]
  rw [Nat.ofDigitChars_ten_toDigits]
  exact h

theorem isDigit_toDigits (n : Nat) : ∀ c ∈ Nat.toDigits 10 n, c.isDigit = true :=
  fun _ h => Nat.isDigit_of_mem_toDigits (by decide) (by decide) h

theorem toList_toString (n : Int) :
    (toString n).toList =
      if 0 ≤ n then Nat.toDigits 10 n.toNat else '-' :: Nat.toDigits 10 (-n).toNat := by
  rw [Int.toString_eq_repr, Int.repr_eq_if]
  by_cases h : 0 ≤ n
  · rw [if_pos h, if_pos h, Nat.toList_repr]
  · rw [if_neg h, if_neg h, String.toList_append, Nat.toList_repr]
    rfl

open Literal (SignText ExponentText PointText MagnitudeText)

theorem exponentText_raised {power : Option Int}
    (h : ∀ n ∈ power, n.natAbs < Literal.exponentCeiling) :
    ExponentText (raised power) (power.getD 0) := by
  cases power with
  | none => exact .none
  | some n =>
      have small := h n rfl
      rw [raised, toList_toString, Option.getD_some]
      split
      next upward =>
        have text := ExponentText.raised (.inl rfl) .none Nat.toDigits_ne_nil
          (isDigit_toDigits n.toNat)
        rwa [if_neg Bool.false_ne_true, exponentSize_toDigits (by omega),
          Int.toNat_of_nonneg upward] at text
      next downward =>
        have text := ExponentText.raised (.inl rfl) .minus Nat.toDigits_ne_nil
          (isDigit_toDigits (-n).toNat)
        rwa [if_pos rfl, exponentSize_toDigits (by omega), Int.toNat_of_nonneg (by omega),
          Int.neg_neg] at text

theorem pointText (whole part : List Char) : PointText (whole ++ pointed part) whole part := by
  cases part with
  | nil =>
      rw [pointed, List.append_nil]
      exact .whole
  | cons c part => exact .pointed

/-- What is laid out stands for what it shows. -/
theorem magnitudeText (layout : Layout) : MagnitudeText layout.text layout.decimal := by
  obtain ⟨whole, part, power, whole_ne_nil, isDigit_whole, isDigit_part, power_small⟩ := layout
  rw [text, ← List.append_assoc]
  exact .intro (pointText whole part) isDigit_whole isDigit_part (.inl whole_ne_nil)
    (exponentText_raised power_small)

theorem exists_cons (layout : Layout) :
    ∃ c rest, layout.text = c :: rest ∧ c.isDigit = true := by
  obtain ⟨whole, part, power, whole_ne_nil, isDigit_whole, -, -⟩ := layout
  cases whole with
  | nil => exact absurd rfl whole_ne_nil
  | cons c whole =>
      exact ⟨c, whole ++ (pointed part ++ raised power), rfl, isDigit_whole c (.head _)⟩

theorem read?_text (layout : Layout) :
    Literal.read? layout.text = some (.finite false layout.decimal) := by
  have denotes := Literal.Denotes.finite .none layout.magnitudeText
  exact Literal.read?_eq_some_iff.2 denotes

theorem read?_minus_text (layout : Layout) :
    Literal.read? ('-' :: layout.text) = some (.finite true layout.decimal) := by
  have denotes := Literal.Denotes.finite .minus layout.magnitudeText
  exact Literal.read?_eq_some_iff.2 denotes

/-- What can stand in a number: letters, digits, points and signs. -/
def isPlain (c : Char) : Bool :=
  c.isAlphanum || c == '.' || c == '-'

theorem isPlain_of_isDigit {c : Char} (h : c.isDigit = true) : isPlain c = true := by
  rw [isPlain, Char.isAlphanum, h]
  simp

theorem isPlain_text (layout : Layout) : ∀ c ∈ layout.text, isPlain c = true := by
  obtain ⟨whole, part, power, -, isDigit_whole, isDigit_part, -⟩ := layout
  intro c hc
  simp only [text, List.mem_append] at hc
  rcases hc with hc | hc | hc
  · exact isPlain_of_isDigit (isDigit_whole c hc)
  · cases part with
    | nil => cases hc
    | cons d part =>
        rcases List.mem_cons.1 hc with rfl | hc
        · rfl
        · exact isPlain_of_isDigit (isDigit_part c hc)
  · cases power with
    | none => cases hc
    | some n =>
        rcases List.mem_cons.1 hc with rfl | hc
        · rfl
        rw [toList_toString] at hc
        split at hc
        · exact isPlain_of_isDigit (isDigit_toDigits _ c hc)
        · rcases List.mem_cons.1 hc with rfl | hc
          · rfl
          · exact isPlain_of_isDigit (isDigit_toDigits _ c hc)

def EndsInDigit (text : List Char) : Prop :=
  ∃ before c, text = before ++ [c] ∧ c.isDigit = true

theorem EndsInDigit.append {text : List Char} (h : EndsInDigit text) (before : List Char) :
    EndsInDigit (before ++ text) := by
  obtain ⟨inner, c, rfl, digit⟩ := h
  exact ⟨before ++ inner, c, (List.append_assoc ..).symm, digit⟩

theorem endsInDigit_of_isDigit {digits : List Char} (some : digits ≠ [])
    (h : ∀ c ∈ digits, c.isDigit = true) : EndsInDigit digits :=
  ⟨digits.dropLast, digits.getLast some, (List.dropLast_concat_getLast some).symm,
    h _ (List.getLast_mem some)⟩

theorem endsInDigit_raised (n : Int) : EndsInDigit (raised (some n)) := by
  have digits (k : Nat) : EndsInDigit (Nat.toDigits 10 k) :=
    endsInDigit_of_isDigit Nat.toDigits_ne_nil (isDigit_toDigits k)
  rw [raised, toList_toString]
  split
  · exact (digits _).append ['e']
  · exact (digits _).append ['e', '-']

theorem endsInDigit_text (layout : Layout) : EndsInDigit layout.text := by
  obtain ⟨whole, part, power, whole_ne_nil, isDigit_whole, isDigit_part, -⟩ := layout
  rw [text]
  cases power with
  | some n => exact ((endsInDigit_raised n).append (pointed part)).append whole
  | none =>
      dsimp only [raised]
      rw [List.append_nil]
      cases part with
      | nil =>
          dsimp only [pointed]
          rw [List.append_nil]
          exact endsInDigit_of_isDigit whole_ne_nil isDigit_whole
      | cons c part =>
          exact ((endsInDigit_of_isDigit (List.cons_ne_nil c part) isDigit_part).append
            ['.']).append whole

end Layout

end WaveBus
