import WaveBus.ChaCha

/-! # Random numbers

A generator is an endless stream of words and the number of words that have been
read. Each draw reads a fixed number of words, whatever their values, so the
position of a generator tells how often it was used.
-/

namespace WaveBus

/-- A stream of words and how many of them have been read. -/
structure Generator where
  stream : Nat → UInt32
  position : Nat := 0

namespace Generator

def keyed (key : ChaCha.Key) : Generator :=
  { stream := ChaCha.keyStream key }

def seeded (seed : UInt64) : Generator := keyed (ChaCha.key seed)

/-- The generator that repeats the given words for ever. -/
def cycling (words : Array UInt32) : Generator :=
  { stream := fun n => words.getD (n % words.size) 0 }

/-- The word that is read next, looking `ahead` words further. -/
def peek (g : Generator) (ahead : Nat) : UInt32 := g.stream (g.position + ahead)

def skip (g : Generator) (count : Nat) : Generator := { g with position := g.position + count }

/-- A word as a multiple of `2 ^ -24` from 0 to below 1: its upper 24 bits. -/
def unit (word : UInt32) : Float32 :=
  (word >>> 8).toFloat32 * Float32.ofBits 0x33800000

/-- A fair coin from two words, the low half of a 64-bit number first: heads below `2 ^ 63`. -/
def coin (low high : UInt32) : Bool :=
  high.toNat * UInt32.size + low.toNat < UInt64.size / 2

end Generator

end WaveBus
