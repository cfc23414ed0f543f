/-! # The ChaCha8 key stream

A block function turns a key and a block number into sixteen words by eight
rounds of additions, rotations and exclusive ors; the blocks one after another
are the stream. A 64-bit seed is stretched to a key by a congruential generator
with permuted output.
-/

namespace WaveBus.ChaCha

/-- The state of the block function: four constants, the key, the block number, two zeros. -/
abbrev Block := Vector UInt32 16

abbrev Key := Vector UInt32 8

/-- Rotates towards the high bits; `0 < n < 32`. -/
def rotateLeft (x n : UInt32) : UInt32 := x <<< n ||| x >>> (32 - n)

/-- Mixes four words of the state. -/
def quarterRound (s : Block) (a b c d : Fin 16) : Block :=
  let s := s.set a (s[a] + s[b])
  let s := s.set d (rotateLeft (s[d] ^^^ s[a]) 16)
  let s := s.set c (s[c] + s[d])
  let s := s.set b (rotateLeft (s[b] ^^^ s[c]) 12)
  let s := s.set a (s[a] + s[b])
  let s := s.set d (rotateLeft (s[d] ^^^ s[a]) 8)
  let s := s.set c (s[c] + s[d])
  s.set b (rotateLeft (s[b] ^^^ s[c]) 7)

/-- One round over the columns of the 4 × 4 state and one over its diagonals. -/
def doubleRound (s : Block) : Block :=
  let s := quarterRound s 0 4 8 12
  let s := quarterRound s 1 5 9 13
  let s := quarterRound s 2 6 10 14
  let s := quarterRound s 3 7 11 15
  let s := quarterRound s 0 5 10 15
  let s := quarterRound s 1 6 11 12
  let s := quarterRound s 2 7 8 13
  quarterRound s 3 4 9 14

/-- The state before the first round. The block number stands with its low word first. -/
def initial (key : Key) (number : UInt64) : Block :=
  #v[0x61707865, 0x3320646E, 0x79622D32, 0x6B206574,
     key[0], key[1], key[2], key[3], key[4], key[5], key[6], key[7],
     number.toUInt32, (number >>> 32).toUInt32, 0, 0]

def block (key : Key) (number : UInt64) : Block :=
  let start := initial key number
  let mixed := doubleRound (doubleRound (doubleRound (doubleRound start)))
  Vector.zipWith (· + ·) mixed start

def keyStream (key : Key) (n : Nat) : UInt32 :=
  (block key (UInt64.ofNat (n / 16)))[n % 16]

/-- One step of the congruential generator. -/
def advance (state : UInt64) : UInt64 :=
  state * 6364136223846793005 + 11634580027462260723

/-- Its state after `n + 1` steps. -/
def stretched (seed : UInt64) : Nat → UInt64
  | 0 => advance seed
  | n + 1 => advance (stretched seed n)

/-- Rotates towards the low bits, by any amount. -/
def rotateRight (x n : UInt32) : UInt32 := x >>> n ||| x <<< (0 - n)

/-- The word that a state puts out: its upper bits folded together and rotated by the topmost five. -/
def output (state : UInt64) : UInt32 :=
  rotateRight (((state >>> 18 ^^^ state) >>> 27).toUInt32) (state >>> 59).toUInt32

def key (seed : UInt64) : Key :=
  Vector.ofFn fun i => output (stretched seed i)

end WaveBus.ChaCha
