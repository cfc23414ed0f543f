import WaveBus.Decimal

/-! # The shortest decimal that reads back

Of all decimals that round to a given single, the one with the fewest digits is
chosen, and of two with equally many the nearer. On each grid of decimals only
the two neighbours of the value can be that one, because the numbers that round
to the value lie on both sides of it without a gap.
-/

namespace WaveBus.Decimal

/-- Nine digits tell any two singles apart. -/
def enoughDigits : Nat := 9

/-- A single is a whole multiple of `2 ^ -149`, hence of `10 ^ -149`. -/
def places : Nat := 149

/-- The value `significand * 2 ^ exponent` in units of `10 ^ -149`. -/
def units (significand : Nat) (exponent : Int) : Nat :=
  significand * Nat.pow 2 (exponent + places).toNat * Nat.pow 5 places

/-- How many digits a number has. -/
def digitCount (n : Nat) : Nat :=
  (Nat.toDigits 10 n).length

/-- On the grid that leaves out the last `dropped` digits of `value`, the decimal
    next to it that `accept` takes, if there is one. A value halfway between two
    acceptable decimals goes to the upper one. -/
def onGrid? (accept : Decimal → Bool) (value dropped : Nat) : Option Decimal :=
  let unit := Nat.pow 10 dropped
  let below : Decimal := ⟨value / unit, dropped - places⟩
  let above : Decimal := ⟨value / unit + 1, dropped - places⟩
  if accept below then
    if accept above && unit ≤ 2 * (value % unit) then some above else some below
  else if accept above then
    some above
  else
    none

/-- The shortest decimal that reads back as `target`, which is the positive number
    `significand * 2 ^ exponent`. -/
def shortest (target : Float32) (significand : Nat) (exponent : Int) : Decimal :=
  let value := units significand exponent
  let reads (d : Decimal) : Bool := d.toSingle.toBits == target.toBits
  let length := digitCount value
  ((List.range enoughDigits).findSome? fun k => onGrid? reads value (length - (k + 1))).getD
    ⟨value, -places⟩

end WaveBus.Decimal
