import WaveBus.Decimal.Shortest

/-! # Writing numbers

A single is written with its shortest digits. A style decides which sizes get an
exponent and whether a whole number keeps its point.
-/

namespace WaveBus

open Float.Model (UnpackedFloat)

/-- How numbers are laid out. -/
structure Style where
  /-- Whether a number whose first digit counts `10 ^ k` is written without an exponent. -/
  positional : Int → Bool
  /-- Whether a whole number is followed by `.0`. -/
  keepsPoint : Bool

namespace Style

/-- Every number without an exponent, and whole numbers bare. -/
def plain : Style := ⟨fun _ => true, false⟩

/-- `digits` with the point behind the first `point` of them; a negative `point`
    puts zeros in front. -/
def placePoint (style : Style) (digits : List Char) (point : Int) : List Char :=
  if point ≤ 0 then
    '0' :: '.' :: List.replicate (-point).toNat '0' ++ digits
  else if digits.length ≤ point.toNat then
    digits ++ List.replicate (point.toNat - digits.length) '0' ++
      if style.keepsPoint then ['.', '0'] else []
  else
    digits.take point.toNat ++ '.' :: digits.drop point.toNat

/-- One digit, the rest behind a point, and the power of ten. -/
def withExponent (digits : List Char) (power : Int) : List Char :=
  let behind := digits.drop 1
  digits.take 1 ++ (if behind.isEmpty then [] else '.' :: behind) ++ 'e' :: (toString power).toList

/-- Writes a decimal. Zeros at the end of its digits are dropped first. -/
def decimal (style : Style) (d : Decimal) : List Char :=
  let all := Nat.toDigits 10 d.significand
  let point := all.length + d.exponent
  let digits := (all.reverse.dropWhile (· == '0')).reverse
  if style.positional (point - 1) then
    style.placePoint digits point
  else
    withExponent digits (point - 1)

/-- Puts a minus in front of what is negative, a zero too. -/
def signed (sign : UnpackedFloat.Sign) (text : List Char) : List Char :=
  match sign with
  | .negative => '-' :: text
  | .positive => text

def write (style : Style) (x : Float32) : List Char :=
  match x.toModel.unpack with
  | .notANumber => "NaN".toList
  | .infinity sign => signed sign "inf".toList
  | .zero sign => signed sign (style.decimal ⟨0, 0⟩)
  | .finite sign significand exponent positive =>
      let size : Float32 := .ofModel (.pack (.finite .positive significand exponent positive))
      signed sign (style.decimal (.shortest size significand exponent))

end Style

end WaveBus
