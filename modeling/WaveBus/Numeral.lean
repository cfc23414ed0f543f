/-! # Unsigned decimal numerals

An optional `+` and one or more ASCII digits, with any number of leading zeros.
-/

namespace WaveBus.Numeral

/-- The digits of a numeral: what is left when one leading `+` is taken off. -/
def digits : List Char → List Char
  | '+' :: rest => rest
  | text => text

/-- The value of a numeral. A lone sign, a minus and any other character are refused. -/
def read? (text : List Char) : Option Nat :=
  let ds := digits text
  if !ds.isEmpty && ds.all Char.isDigit then some (Nat.ofDigitChars 10 ds 0) else none

theorem digits_of_isDigit {text : List Char} (all : ∀ c ∈ text, c.isDigit = true) :
    digits text = text := by
  cases text with
  | nil => rfl
  | cons c rest =>
      have digit := all c List.mem_cons_self
      unfold digits
      split
      next e =>
        cases e
        exact absurd digit (by decide)
      next => rfl

/-- A numeral with the number that it stands for. -/
inductive Denotes : List Char → Nat → Prop where
  | plain {text : List Char} (filled : text ≠ []) (all : ∀ c ∈ text, c.isDigit = true) :
      Denotes text (Nat.ofDigitChars 10 text 0)
  | signed {text : List Char} (filled : text ≠ []) (all : ∀ c ∈ text, c.isDigit = true) :
      Denotes ('+' :: text) (Nat.ofDigitChars 10 text 0)

theorem Denotes.ne_nil {text : List Char} {n : Nat} (h : Denotes text n) : text ≠ [] := by
  cases h with
  | plain filled => exact filled
  | signed => exact List.cons_ne_nil _ _

theorem read?_eq_some_iff {text : List Char} {n : Nat} : read? text = some n ↔ Denotes text n := by
  constructor
  · intro h
    simp only [read?, Option.ite_none_right_eq_some, Bool.and_eq_true, Bool.not_eq_true',
      List.isEmpty_eq_false_iff, List.all_eq_true] at h
    obtain ⟨⟨filled, all⟩, value⟩ := h
    cases value
    revert filled all
    unfold digits
    split
    next rest => exact .signed
    next => exact .plain
  · intro h
    cases h with
    | plain filled all => simpa [read?, digits_of_isDigit all, filled] using all
    | signed filled all => simpa [read?, digits, filled] using all

/-- The digits of a number are a numeral for it. -/
theorem read?_toDigits (n : Nat) : read? (Nat.toDigits 10 n) = some n := by
  have digit : ∀ c ∈ Nat.toDigits 10 n, c.isDigit = true := by
    intro c inside
    exact Nat.isDigit_of_mem_toDigits (by decide) (by decide) inside
  have denotes := Denotes.plain Nat.toDigits_ne_nil digit
  rw [Nat.ofDigitChars_toDigits (by decide) (by decide)] at denotes
  exact read?_eq_some_iff.2 denotes

/-- The value of a numeral, provided that it is below `bound`. -/
def readBelow? (bound : Nat) (text : List Char) : Option Nat :=
  (read? text).filter (· < bound)

def readByte? (text : List Char) : Option UInt8 :=
  (readBelow? 256 text).map UInt8.ofNat

theorem readBelow?_eq_some_iff {bound : Nat} {text : List Char} {n : Nat} :
    readBelow? bound text = some n ↔ Denotes text n ∧ n < bound := by
  simp [readBelow?, read?_eq_some_iff]

theorem readBelow?_eq_none_iff {bound : Nat} {text : List Char} :
    readBelow? bound text = none ↔ ∀ n, Denotes text n → bound ≤ n := by
  simp only [Option.eq_none_iff_forall_ne_some, ne_eq, readBelow?_eq_some_iff, not_and, Nat.not_lt]

theorem readByte?_eq_some_iff {text : List Char} {byte : UInt8} :
    readByte? text = some byte ↔ Denotes text byte.toNat := by
  simp only [readByte?, Option.map_eq_some_iff, readBelow?_eq_some_iff]
  constructor
  · rintro ⟨n, ⟨denotes, small⟩, rfl⟩
    rwa [UInt8.toNat_ofNat_of_lt' small]
  · intro denotes
    exact ⟨byte.toNat, ⟨denotes, byte.toNat_lt⟩, UInt8.ofNat_toNat⟩

theorem readByte?_eq_none_iff {text : List Char} :
    readByte? text = none ↔ ∀ n, Denotes text n → 256 ≤ n := by
  rw [readByte?, Option.map_eq_none_iff, readBelow?_eq_none_iff]

end WaveBus.Numeral
