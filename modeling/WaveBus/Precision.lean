/-! # Moving between single and double precision

A number is taken apart into sign, significand and exponent, rounded to the
nearest value of the other width (ties to the even significand) and put together
again. Going up is exact; going down may overflow to infinity or sink to zero.
-/

namespace WaveBus

open Float.Model (Format UnpackedFloat)

/-- The double with the same value. -/
def widen (x : Float32) : Float :=
  .ofModel <| .pack <|
    match x.toModel.unpack with
    | .finite sign significand exponent _ => .round Format.binary64 sign significand exponent
    | special => special

/-- The nearest single, ties to the even significand. -/
def narrow (x : Float) : Float32 :=
  .ofModel <| .pack <|
    match x.toModel.unpack with
    | .finite sign significand exponent _ => .round Format.binary32 sign significand exponent
    | special => special

end WaveBus
