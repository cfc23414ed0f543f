import WaveBus.Decimal

/-! # Number literals

The text of a number: an optional sign, then one of the words `inf`, `infinity`
and `nan` in any case, or digits with at most one point among them and an
optional exponent. A literal is read into exact decimal form; only then is it
rounded to the width that is wanted.
-/

namespace WaveBus

/-- What the text of a number says. -/
inductive Literal where
  | notANumber
  | infinite (negative : Bool)
  | finite (negative : Bool) (magnitude : Decimal)
  deriving Repr, DecidableEq

namespace Literal

/-- Splits off a sign. The flag tells whether it was a minus. -/
def sign : List Char → Bool × List Char
  | '-' :: rest => (true, rest)
  | '+' :: rest => (false, rest)
  | text => (false, text)

/-- From here on an exponent takes every significand to infinity or to zero. -/
def exponentCeiling : Nat := 65536

/-- The size of an exponent. Digits behind the ceiling change nothing and are
    passed over, so the number stays small however long its text is. -/
def exponentSize (ds : List Char) : Nat :=
  ds.foldl (fun n c => if n < exponentCeiling then 10 * n + (c.toNat - '0'.toNat) else n) 0

/-- The exponent that may end a literal: nothing, or `e` and a whole number. -/
def exponent? : List Char → Option Int
  | [] => some 0
  | c :: rest =>
      let (negative, ds) := sign rest
      if (c == 'e' || c == 'E') && !ds.isEmpty && ds.all Char.isDigit then
        some (if negative then -(exponentSize ds : Int) else exponentSize ds)
      else
        none

/-- The digits behind a point, and what follows them. -/
def fraction : List Char → List Char × List Char
  | '.' :: rest => (rest.takeWhile Char.isDigit, rest.dropWhile Char.isDigit)
  | text => ([], text)

/-- A literal without its sign. There is a digit on at least one side of the point. -/
def magnitude? (text : List Char) : Option Decimal :=
  let whole := text.takeWhile Char.isDigit
  let (part, rest) := fraction (text.dropWhile Char.isDigit)
  if whole.isEmpty && part.isEmpty then
    none
  else
    (exponent? rest).map fun shift =>
      { significand := Nat.ofDigitChars 10 (whole ++ part) 0
        exponent := shift - part.length }

/-- Reads the whole text as one literal. -/
def read? (text : List Char) : Option Literal :=
  let (negative, body) := sign text
  let word := body.map Char.toLower
  if word == "inf".toList || word == "infinity".toList then
    some (.infinite negative)
  else if word == "nan".toList then
    some .notANumber
  else
    (magnitude? body).map (.finite negative)

/-- The nearest single; the sign is kept on a zero. -/
def toSingle : Literal → Float32
  | .notANumber => Float32.ofBits 0x7FC00000
  | .infinite negative => Float32.ofBits (if negative then 0xFF800000 else 0x7F800000)
  | .finite negative d => if negative then -d.toSingle else d.toSingle

/-- The nearest double; the sign is kept on a zero. -/
def toDouble : Literal → Float
  | .notANumber => Float.ofBits 0x7FF8000000000000
  | .infinite negative => Float.ofBits (if negative then 0xFFF0000000000000 else 0x7FF0000000000000)
  | .finite negative d => if negative then -d.toDouble else d.toDouble

end Literal

end WaveBus
