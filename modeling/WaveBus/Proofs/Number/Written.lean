import WaveBus.Proofs.Decimal.Shortest
import WaveBus.Proofs.Number.Layout
import WaveBus.Style

/-! # Written numbers

Whatever the style, a decimal is written in the layout that numbers are read in, and
shows the same value. So a single that is written is read back, bit for bit.
-/

namespace WaveBus

namespace Style

/-- The digits of a decimal that are written: all but the zeros at the end. -/
def leading (significand : Nat) : List Char :=
  ((Nat.toDigits 10 significand).reverse.dropWhile (· == '0')).reverse

theorem exists_zeros (significand : Nat) :
    ∃ zeros, Nat.toDigits 10 significand = leading significand ++ List.replicate zeros '0' := by
  let ended := (Nat.toDigits 10 significand).reverse
  have zeros : ended.takeWhile (· == '0') =
      List.replicate (ended.takeWhile (· == '0')).length '0' :=
    List.eq_replicate_iff.2 ⟨rfl, fun _ hc => eq_of_beq (List.mem_takeWhile_imp (p := (· == '0')) hc)⟩
  refine ⟨(ended.takeWhile (· == '0')).length, ?_⟩
  rw [← List.reverse_inj, List.reverse_append, List.reverse_replicate, ← zeros, leading,
    List.reverse_reverse]
  exact List.takeWhile_append_dropWhile.symm

theorem isDigit_leading (significand : Nat) : ∀ c ∈ leading significand, c.isDigit = true := by
  obtain ⟨zeros, split⟩ := exists_zeros significand
  intro c hc
  exact Layout.isDigit_toDigits significand c (split ▸ List.mem_append_left _ hc)

theorem ofDigitChars_leading (significand zeros : Nat)
    (split : Nat.toDigits 10 significand = leading significand ++ List.replicate zeros '0') :
    10 ^ zeros * Nat.ofDigitChars 10 (leading significand) 0 = significand := by
  have read := congrArg (fun all => Nat.ofDigitChars 10 all 0) split
  rw [Nat.ofDigitChars_ten_toDigits, Nat.ofDigitChars_append,
    Nat.ofDigitChars_replicate_zero] at read
  exact read.symm

theorem leading_ne_nil {significand : Nat} (h : significand ≠ 0) : leading significand ≠ [] := by
  obtain ⟨zeros, split⟩ := exists_zeros significand
  intro none
  have read := ofDigitChars_leading significand zeros split
  rw [none, Nat.ofDigitChars_nil, Nat.mul_zero] at read
  exact h read.symm

/-- The value of digits with the point behind the first `point` of them. -/
def shown (digits : List Char) (point : Int) : ℚ :=
  Nat.ofDigitChars 10 digits 0 * 10 ^ (point - digits.length)

theorem shown_leading (d : Decimal) :
    shown (leading d.significand) ((Nat.toDigits 10 d.significand).length + d.exponent) =
      d.value := by
  obtain ⟨zeros, split⟩ := exists_zeros d.significand
  have digits : (10 : ℚ) ^ zeros * Nat.ofDigitChars 10 (leading d.significand) 0 =
      d.significand := by
    exact_mod_cast ofDigitChars_leading d.significand zeros split
  have length : (Nat.toDigits 10 d.significand).length + d.exponent -
      (leading d.significand).length = zeros + d.exponent := by
    rw [split, List.length_append, List.length_replicate]
    push_cast
    ring
  rw [shown, length, Decimal.value, ← digits, zpow_add₀ (by norm_num), zpow_natCast]
  ring

theorem pointed_of_ne_nil {part : List Char} (h : part ≠ []) : Layout.pointed part = '.' :: part := by
  cases part with
  | nil => exact absurd rfl h
  | cons c part => rfl

theorem isDigit_replicate (n : Nat) : ∀ c ∈ List.replicate n '0', c.isDigit = true := by
  intro c hc
  rw [List.eq_of_mem_replicate hc]
  rfl

theorem isDigit_append {first second : List Char} (h : ∀ c ∈ first, c.isDigit = true)
    (h' : ∀ c ∈ second, c.isDigit = true) : ∀ c ∈ first ++ second, c.isDigit = true := by
  intro c hc
  rcases List.mem_append.1 hc with hc | hc
  · exact h c hc
  · exact h' c hc

theorem isDigit_nil : ∀ c ∈ ([] : List Char), c.isDigit = true := nofun

theorem none_small : ∀ n ∈ (none : Option Int), n.natAbs < Literal.exponentCeiling := nofun

/-- A number below one: zeros stand between the point and its digits. -/
theorem exists_layout_below {digits : List Char} (some : digits ≠ [])
    (isDigit : ∀ c ∈ digits, c.isDigit = true) (zeros : Nat) :
    ∃ layout : Layout, '0' :: '.' :: List.replicate zeros '0' ++ digits = layout.text ∧
      layout.decimal.value = shown digits (-zeros) := by
  let part := List.replicate zeros '0' ++ digits
  have part_ne_nil : part ≠ [] := List.append_ne_nil_of_right_ne_nil _ some
  refine ⟨⟨['0'], part, none, List.cons_ne_nil _ _, isDigit_replicate 1,
    isDigit_append (isDigit_replicate _) isDigit, none_small⟩, ?_, ?_⟩
  · rw [Layout.text, pointed_of_ne_nil part_ne_nil, Layout.raised, List.append_nil]
    rfl
  · have value : Nat.ofDigitChars 10 (List.replicate 1 '0' ++ part) 0 =
        Nat.ofDigitChars 10 digits 0 := by
      rw [Nat.ofDigitChars_append, Nat.ofDigitChars_replicate_zero, Nat.mul_zero,
        Nat.ofDigitChars_append, Nat.ofDigitChars_replicate_zero, Nat.mul_zero]
    have length : (0 : Int) - part.length = -zeros - digits.length := by
      rw [List.length_append, List.length_replicate]
      push_cast
      ring
    show ((Nat.ofDigitChars 10 (List.replicate 1 '0' ++ part) 0 : ℕ) : ℚ) *
      10 ^ ((0 : Int) - part.length) = _
    rw [value, length, shown]

/-- A whole number: zeros stand behind its digits, and perhaps a point and a zero. -/
theorem exists_layout_whole {digits : List Char} (some : digits ≠ [])
    (isDigit : ∀ c ∈ digits, c.isDigit = true) (zeros : Nat) (keepsPoint : Bool) :
    ∃ layout : Layout,
      digits ++ List.replicate zeros '0' ++ (if keepsPoint then ['.', '0'] else []) =
        layout.text ∧
      layout.decimal.value = shown digits (digits.length + zeros) := by
  let all := digits ++ List.replicate zeros '0'
  have all_ne_nil : all ≠ [] := List.append_ne_nil_of_left_ne_nil some _
  have isDigit_all := isDigit_append isDigit (isDigit_replicate zeros)
  have value : shown digits (digits.length + zeros) = Nat.ofDigitChars 10 all 0 := by
    rw [shown, add_sub_cancel_left, zpow_natCast, Nat.ofDigitChars_append,
      Nat.ofDigitChars_replicate_zero]
    push_cast
    ring
  rw [value]
  cases keepsPoint with
  | true =>
      refine ⟨⟨all, ['0'], none, all_ne_nil, isDigit_all, isDigit_replicate 1, none_small⟩,
        rfl, ?_⟩
      show ((Nat.ofDigitChars 10 (all ++ List.replicate 1 '0') 0 : ℕ) : ℚ) *
        10 ^ (0 - 1 : Int) = _
      rw [Nat.ofDigitChars_append, Nat.ofDigitChars_replicate_zero, zero_sub, zpow_neg_one]
      push_cast
      ring
  | false =>
      refine ⟨⟨all, [], none, all_ne_nil, isDigit_all, isDigit_nil, none_small⟩, rfl, ?_⟩
      show ((Nat.ofDigitChars 10 (all ++ []) 0 : ℕ) : ℚ) * 10 ^ (0 - 0 : Int) = _
      rw [List.append_nil, sub_zero, zpow_zero, mul_one]

/-- A point among the digits. -/
theorem exists_layout_split {digits : List Char}
    (isDigit : ∀ c ∈ digits, c.isDigit = true) {point : Nat} (first : 0 < point)
    (inside : point < digits.length) :
    ∃ layout : Layout, digits.take point ++ '.' :: digits.drop point = layout.text ∧
      layout.decimal.value = shown digits point := by
  have part_ne_nil : digits.drop point ≠ [] := by
    rw [Ne, List.drop_eq_nil_iff]
    omega
  have whole_ne_nil : digits.take point ≠ [] := by
    rw [Ne, List.take_eq_nil_iff, not_or]
    exact ⟨first.ne', List.length_pos_iff.1 (by omega)⟩
  refine ⟨⟨digits.take point, digits.drop point, none, whole_ne_nil,
    fun c hc => isDigit c (List.mem_of_mem_take hc),
    fun c hc => isDigit c (List.mem_of_mem_drop hc), none_small⟩, ?_, ?_⟩
  · rw [Layout.text, pointed_of_ne_nil part_ne_nil, Layout.raised, List.append_nil]
  · show ((Nat.ofDigitChars 10 (digits.take point ++ digits.drop point) 0 : ℕ) : ℚ) *
      10 ^ ((0 : Int) - (digits.drop point).length) = _
    have length : (0 : Int) - (digits.drop point).length = point - digits.length := by
      rw [List.length_drop]
      omega
    rw [List.take_append_drop, length, shown]

theorem exists_layout_placePoint (style : Style) {digits : List Char} (some : digits ≠ [])
    (isDigit : ∀ c ∈ digits, c.isDigit = true) (point : Int) :
    ∃ layout : Layout, style.placePoint digits point = layout.text ∧
      layout.decimal.value = shown digits point := by
  rw [placePoint]
  by_cases below : point ≤ 0
  · have zeros : point = -((-point).toNat : Int) := by omega
    rw [if_pos below]
    obtain ⟨layout, text, value⟩ := exists_layout_below some isDigit (-point).toNat
    rw [← zeros] at value
    exact ⟨layout, text, value⟩
  rw [if_neg below]
  by_cases whole : digits.length ≤ point.toNat
  · have zeros : (digits.length : Int) + (point.toNat - digits.length : Nat) = point := by omega
    rw [if_pos whole]
    obtain ⟨layout, text, value⟩ :=
      exists_layout_whole some isDigit (point.toNat - digits.length) style.keepsPoint
    rw [zeros] at value
    exact ⟨layout, text, value⟩
  · have inside : (point.toNat : Int) = point := by omega
    rw [if_neg whole]
    obtain ⟨layout, text, value⟩ :=
      exists_layout_split isDigit (show 0 < point.toNat by omega) (Nat.lt_of_not_le whole)
    rw [inside] at value
    exact ⟨layout, text, value⟩

theorem exists_layout_withExponent {digits : List Char} (some : digits ≠ [])
    (isDigit : ∀ c ∈ digits, c.isDigit = true) {power : Int}
    (small : power.natAbs < Literal.exponentCeiling) :
    ∃ layout : Layout, withExponent digits power = layout.text ∧
      layout.decimal.value = shown digits (power + 1) := by
  have whole_ne_nil : digits.take 1 ≠ [] := by
    rw [Ne, List.take_eq_nil_iff, not_or]
    exact ⟨Nat.one_ne_zero, some⟩
  refine ⟨⟨digits.take 1, digits.drop 1, .some power, whole_ne_nil,
    fun c hc => isDigit c (List.mem_of_mem_take hc),
    fun c hc => isDigit c (List.mem_of_mem_drop hc), ?_⟩, ?_, ?_⟩
  · rintro n ⟨⟩
    exact small
  · rw [withExponent, Layout.text, List.append_assoc]
    dsimp only
    cases digits.drop 1 <;> rfl
  · show ((Nat.ofDigitChars 10 (digits.take 1 ++ digits.drop 1) 0 : ℕ) : ℚ) *
      10 ^ (power - (digits.drop 1).length) = _
    have length : power - (digits.drop 1).length = power + 1 - digits.length := by
      have := List.length_pos_iff.2 some
      rw [List.length_drop]
      omega
    rw [List.take_append_drop, length, shown]

/-- A decimal is written in the layout of numbers. -/
theorem exists_layout_decimal (style : Style) {d : Decimal} (some : d.significand ≠ 0)
    (small : ((Nat.toDigits 10 d.significand).length + d.exponent - 1).natAbs <
      Literal.exponentCeiling) :
    ∃ layout : Layout, style.decimal d = layout.text ∧ layout.decimal.value = d.value := by
  have ne_nil := leading_ne_nil some
  have isDigit := isDigit_leading d.significand
  rw [← shown_leading, decimal]
  split
  · exact exists_layout_placePoint style ne_nil isDigit _
  · obtain ⟨layout, text, value⟩ := exists_layout_withExponent ne_nil isDigit small
    rw [sub_add_cancel] at value
    exact ⟨layout, text, value⟩

/-- Zero, if the style writes it without an exponent. -/
theorem exists_layout_zero {style : Style} (bare : style.positional 0 = true) :
    ∃ layout : Layout, style.decimal ⟨0, 0⟩ = layout.text ∧ layout.decimal.value = 0 := by
  have text : style.decimal ⟨0, 0⟩ = '0' :: if style.keepsPoint then ['.', '0'] else [] :=
    if_pos bare
  have zero : ∀ {layout : Layout}, layout.decimal.significand = 0 → layout.decimal.value = 0 := by
    intro layout none
    rw [Decimal.value, none, Nat.cast_zero, zero_mul]
  rw [text]
  cases style.keepsPoint with
  | true =>
      exact ⟨⟨['0'], ['0'], none, List.cons_ne_nil _ _, isDigit_replicate 1, isDigit_replicate 1,
        none_small⟩, rfl, zero rfl⟩
  | false =>
      exact ⟨⟨['0'], [], none, List.cons_ne_nil _ _, isDigit_replicate 1, isDigit_nil, none_small⟩,
        rfl, zero rfl⟩

end Style

open Float.Model (UnpackedFloat)
open Float.Model.UnpackedFloat (Sign)

def Literal.isNegative : Sign → Bool
  | .negative => true
  | .positive => false

/-- The texts of a single: the words for what is no number, and the layouts that show it. -/
inductive Written (x : Float32) : List Char → Prop
  | notANumber (h : x.toModel.unpack = .notANumber) : Written x "NaN".toList
  | infinity (sign : Sign) (h : x.toModel.unpack = .infinity sign) :
      Written x (Style.signed sign "inf".toList)
  | finite (sign : Sign) (layout : Layout)
      (h : Literal.toSingle (.finite (Literal.isNegative sign) layout.decimal) = x) :
      Written x (Style.signed sign layout.text)

namespace Written

theorem write (style : Style) (bare : style.positional 0 = true) (x : Float32) :
    Written x (style.write x) := by
  have packed := Single.pack_unpack x
  rw [Style.write]
  cases unpacked : x.toModel.unpack with
  | notANumber => exact .notANumber unpacked
  | infinity sign => exact .infinity sign unpacked
  | zero sign =>
      obtain ⟨layout, text, value⟩ := Style.exists_layout_zero bare
      dsimp only
      rw [text]
      refine .finite sign layout ?_
      rw [unpacked] at packed
      rw [← packed, Literal.toSingle, Decimal.toSingle_eq_nearest, value, Rounding.nearest_zero]
      cases sign <;> rfl
  | finite sign significand exponent positive =>
      -- The search takes the size alone; the sign is put back around both text and value.
      have finite := Single.finite_of_unpack unpacked
      obtain ⟨digits, least, most⟩ := Decimal.size_shortest
        (.ofModel (.pack (.finite .positive significand exponent positive))) finite
      have length := (Nat.length_toDigits_le_iff (b := 10) (by decide) (by decide)).2 digits
      obtain ⟨layout, text, value⟩ := style.exists_layout_decimal
        (Decimal.significand_shortest_ne_zero positive finite rfl)
        (by simp only [Literal.exponentCeiling]; omega)
      have reads := (Decimal.toSingle_congr value).trans
        (Decimal.toSingle_shortest positive finite rfl)
      dsimp only
      rw [text]
      refine .finite sign layout ?_
      rw [unpacked] at packed
      rw [← packed, Literal.toSingle, reads]
      cases sign with
      | positive => rfl
      | negative => exact Single.neg_pack positive finite

/-- A written single is read back. -/
theorem read? {x : Float32} {text : List Char} (h : Written x text) :
    ∃ literal, Literal.read? text = some literal ∧ literal.toSingle = x := by
  cases h with
  | notANumber h =>
      refine ⟨.notANumber, rfl, ?_⟩
      rw [← Single.pack_unpack x, h]
      rfl
  | infinity sign h =>
      rw [← Single.pack_unpack x, h]
      cases sign with
      | negative => exact ⟨.infinite true, rfl, rfl⟩
      | positive => exact ⟨.infinite false, rfl, rfl⟩
  | finite sign layout h =>
      refine ⟨_, ?_, h⟩
      cases sign with
      | negative => exact layout.read?_minus_text
      | positive => exact layout.read?_text

theorem isPlain {x : Float32} {text : List Char} (h : Written x text) :
    ∀ c ∈ text, Layout.isPlain c = true := by
  cases h with
  | notANumber h =>
      have plain : ['N', 'a', 'N'].all Layout.isPlain = true := rfl
      exact List.all_eq_true.1 plain
  | infinity sign h =>
      cases sign with
      | positive =>
          have plain : ['i', 'n', 'f'].all Layout.isPlain = true := rfl
          exact List.all_eq_true.1 plain
      | negative =>
          have plain : ['-', 'i', 'n', 'f'].all Layout.isPlain = true := rfl
          exact List.all_eq_true.1 plain
  | finite sign layout h =>
      intro c hc
      cases sign with
      | positive => exact layout.isPlain_text c hc
      | negative =>
          rcases List.mem_cons.1 hc with rfl | hc
          · rfl
          · exact layout.isPlain_text c hc

theorem ne_nil {x : Float32} {text : List Char} (h : Written x text) : text ≠ [] := by
  cases h with
  | notANumber h => exact List.cons_ne_nil 'N' ['a', 'N']
  | infinity sign h =>
      cases sign with
      | positive => exact List.cons_ne_nil 'i' ['n', 'f']
      | negative => exact List.cons_ne_nil '-' ['i', 'n', 'f']
  | finite sign layout h =>
      obtain ⟨c, rest, begins, -⟩ := layout.exists_cons
      cases sign with
      | positive =>
          show layout.text ≠ []
          rw [begins]
          exact List.cons_ne_nil c rest
      | negative => exact List.cons_ne_nil _ _

end Written

end WaveBus
