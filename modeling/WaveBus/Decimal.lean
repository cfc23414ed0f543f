/-! # Decimals

Numbers in decimal form are exact. They are rounded once, when a single or a
double is made of them.
-/

namespace WaveBus

/-- The number `significand * 10 ^ exponent`. -/
structure Decimal where
  significand : Nat
  exponent : Int
  deriving Repr, DecidableEq

namespace Decimal

/-- The nearest single, ties to the even significand. -/
def toSingle (d : Decimal) : Float32 :=
  .ofModel (.ofScientific d.significand d.exponent)

/-- The nearest double, ties to the even significand. -/
def toDouble (d : Decimal) : Float :=
  .ofModel (.ofScientific d.significand d.exponent)

end Decimal

end WaveBus
