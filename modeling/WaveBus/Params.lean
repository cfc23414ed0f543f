/-! # Parameters of the bus model

Five numbers describe how the lines of the output bus pull each other. Any
single-precision value is allowed in each of them.
-/

namespace WaveBus

/-- What drives the bus model. -/
structure Params where
  /-- Level above which a line reads as one. -/
  bias : Float32
  /-- Level of the pulse line. -/
  pulseStrength : Float32
  /-- Level of the top accumulator line when its bit is set. -/
  topBit : Float32
  /-- How fast the pull of a line fades with its distance. -/
  distance : Float32
  /-- Share of its own level that a line keeps in a sawtooth and triangle blend. -/
  stMix : Float32
  deriving Repr, BEq

namespace Params

/-- The names of the numbers. -/
inductive Field where
  | bias
  | pulseStrength
  | topBit
  | distance
  | stMix
  deriving Repr, DecidableEq

/-- The fields, in the order in which they are written. -/
def Field.all : List Field := [.bias, .pulseStrength, .topBit, .distance, .stMix]

def zero : Params :=
  let z := Float32.ofBits 0
  ⟨z, z, z, z, z⟩

instance : Inhabited Params := ⟨zero⟩

def get (params : Params) : Field → Float32
  | .bias => params.bias
  | .pulseStrength => params.pulseStrength
  | .topBit => params.topBit
  | .distance => params.distance
  | .stMix => params.stMix

def set (params : Params) (field : Field) (value : Float32) : Params :=
  match field with
  | .bias => { params with bias := value }
  | .pulseStrength => { params with pulseStrength := value }
  | .topBit => { params with topBit := value }
  | .distance => { params with distance := value }
  | .stMix => { params with stMix := value }

theorem get_set (params : Params) (field other : Field) (value : Float32) :
    (params.set field value).get other = if other = field then value else params.get other := by
  cases field <;> cases other <;> rfl

theorem ext_get {params other : Params} (h : ∀ field, params.get field = other.get field) :
    params = other := by
  cases params
  cases other
  simp only [mk.injEq]
  exact ⟨h .bias, h .pulseStrength, h .topBit, h .distance, h .stMix⟩

end Params

end WaveBus
