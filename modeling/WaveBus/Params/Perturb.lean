import WaveBus.Generator
import WaveBus.Params
import WaveBus.Precision

/-! # Random steps between parameter sets

A step multiplies every number by a factor of its own between one half and two.
So no number changes its sign, and a zero stays zero.
-/

namespace WaveBus

/-- The factor for a draw `u` from 0 to below 1: `1 - u / 2`, or its reciprocal. -/
def scaleFactor (u : Float32) (invert : Bool) : Float :=
  let shrink := 1.0 - widen u * 0.5
  if invert then 1.0 / shrink else shrink

/-- The words that one factor takes: one for the draw, two for the coin. -/
def wordsPerFactor : Nat := 3

namespace Generator

/-- The factor that the next words give, looking `ahead` words further. -/
def factor (g : Generator) (ahead : Nat) : Float :=
  scaleFactor (unit (g.peek ahead)) (coin (g.peek (ahead + 1)) (g.peek (ahead + 2)))

def drawFactor (g : Generator) : Float × Generator :=
  (g.factor 0, g.skip wordsPerFactor)

/-- Draws `count` factors. -/
def drawFactors (g : Generator) : Nat → List Float × Generator
  | 0 => ([], g)
  | count + 1 =>
      let (factor, g) := g.drawFactor
      let (rest, g) := g.drawFactors count
      (factor :: rest, g)

end Generator

/-- A number times a factor: the product of doubles, rounded once more to a single. -/
def scaled (value : Float32) (factor : Float) : Float32 :=
  narrow (widen value * factor)

/-- The smaller of a value and 1. What does not compare becomes 1. -/
def capped (value : Float32) : Float32 :=
  if value < 1.0 then value else 1.0

namespace Params

/-- The step that five factors make. The blend share is held at 1 or below. -/
def scale (params : Params) (factor : Field → Float) : Params where
  bias := scaled params.bias (factor .bias)
  pulseStrength := scaled params.pulseStrength (factor .pulseStrength)
  topBit := scaled params.topBit (factor .topBit)
  distance := scaled params.distance (factor .distance)
  stMix := capped (scaled params.stMix (factor .stMix))

/-- The place of a field in the order in which factors are drawn. -/
def Field.rank : Field → Nat
  | .bias => 0
  | .pulseStrength => 1
  | .topBit => 2
  | .distance => 3
  | .stMix => 4

def wordsPerStep : Nat := 15

def perturb (params : Params) (g : Generator) : Params × Generator :=
  (params.scale fun field => g.factor (wordsPerFactor * field.rank), g.skip wordsPerStep)

@[simp] theorem position_perturb (params : Params) (g : Generator) :
    (params.perturb g).2.position = g.position + wordsPerStep := rfl

/-- The parameters after one random step, after two, and so on up to `steps`. -/
def walk (params : Params) (g : Generator) : (steps : Nat) → List Params
  | 0 => []
  | steps + 1 =>
      let (next, g) := params.perturb g
      next :: next.walk g steps

@[simp] theorem length_walk (params : Params) (g : Generator) (steps : Nat) :
    (params.walk g steps).length = steps := by
  induction steps generalizing params g with
  | zero => rfl
  | succ steps ih => simp [walk, ih]

end Params

end WaveBus
