import WaveBus.Fault

/-! # Tables

A table holds one sample for each of the 4096 values of the upper accumulator
bits. It is what a chip was measured to put out, or what the model predicts.
-/

namespace WaveBus

/-- How many values the accumulator has. -/
def tableSize : Nat := 4096

/-- One sample for every value of the accumulator. -/
structure Table where
  samples : Vector UInt8 tableSize
  deriving DecidableEq

namespace Table

/-- The index that an accumulator stands for: its lower twelve bits. -/
def index (accumulator : UInt16) : Fin tableSize :=
  ⟨accumulator.toNat % tableSize, Nat.mod_lt _ (by decide)⟩

/-- The sample for a value of the accumulator. -/
def get (table : Table) (accumulator : UInt16) : UInt8 :=
  table.samples[index accumulator]

/-- The table of a function on the accumulator. -/
def ofFn (sample : UInt16 → UInt8) : Table :=
  ⟨Vector.ofFn fun i => sample (UInt16.ofNat i)⟩

@[simp] theorem get_ofFn (sample : UInt16 → UInt8) (accumulator : UInt16) :
    (ofFn sample).get accumulator = sample (UInt16.ofNat (accumulator.toNat % tableSize)) := by
  simp [get, ofFn, index]

/-- Every bit of every sample turned over. -/
def complement (table : Table) : Table :=
  ⟨table.samples.map (~~~ ·)⟩

@[simp] theorem get_complement (table : Table) (accumulator : UInt16) :
    table.complement.get accumulator = ~~~ table.get accumulator := by
  simp [get, complement]

@[simp] theorem complement_complement (table : Table) : table.complement.complement = table := by
  obtain ⟨samples⟩ := table
  simp only [complement, Vector.map_map, mk.injEq]
  conv => rhs; rw [← Vector.map_id samples]
  congr 1
  funext b
  simp

/-- The table with given samples, if there are as many as it takes. -/
def ofSamples (samples : Array UInt8) : Except Fault Table :=
  if h : samples.size = tableSize then
    .ok ⟨⟨samples, h⟩⟩
  else
    .error (.malformed samples.size (.sampleCount tableSize samples.size))

@[simp] theorem ofSamples_toArray (table : Table) :
    ofSamples table.samples.toArray = .ok table := by
  unfold ofSamples
  rw [dif_pos table.samples.size_toArray]

/-- Samples in decimal, each with a line end. -/
def sampleText (samples : List UInt8) : String :=
  String.join (samples.map fun sample => toString sample.toNat ++ "\n")

def text (table : Table) : String := sampleText table.samples.toList

end Table

end WaveBus
