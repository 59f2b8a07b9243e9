-- The bits of a compressed stream: of each byte the lowest bit comes first.

namespace SamplingProfile.Zlib

/-- The bits of a byte, the lowest first. -/
def bitsOf (b : UInt8) : List Bool := (List.range 8).map fun i => b.toNat.testBit i

/-- What is left of a stream: the bits of the byte that was begun, and the bytes behind it. -/
structure Bits where
  begun : List Bool
  bytes : List UInt8
deriving Repr

namespace Bits

/-- The stream of some bytes. -/
def ofBytes (bytes : List UInt8) : Bits := ⟨[], bytes⟩

/-- The next bit and what is left behind it. -/
def next? : Bits → Option (Bool × Bits)
  | ⟨bit :: begun, bytes⟩ => some (bit, ⟨begun, bytes⟩)
  | ⟨[], b :: bytes⟩ => some (b.toNat.testBit 0, ⟨(bitsOf b).tail, bytes⟩)
  | ⟨[], []⟩ => none

/-- The next whole byte and what is left behind it. -/
def nextByte? : Bits → Option (UInt8 × Bits)
  | ⟨_, b :: bytes⟩ => some (b, ⟨[], bytes⟩)
  | ⟨_, []⟩ => none

/-- The stream from the next whole byte on. -/
def align (s : Bits) : Bits := ⟨[], s.bytes⟩

/-- The number of bits that are left. -/
def length (s : Bits) : Nat := s.begun.length + 8 * s.bytes.length

end Bits

end SamplingProfile.Zlib
