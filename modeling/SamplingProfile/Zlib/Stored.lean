-- Writing zlib streams whose blocks hold their bytes as they are. Such a stream is valid
-- for every reader of zlib and costs five bytes for each block.
import SamplingProfile.Zlib.Adler32
import SamplingProfile.Bytes.LittleEndian

namespace SamplingProfile.Zlib

/-- The most bytes that one stored block holds. -/
def storedLimit : Nat := 65535

/-- A stored block: the mark of the last block, the length, its complement, and the bytes. -/
def storedBlock (last : Bool) (bytes : List UInt8) : List UInt8 :=
  (if last then 1 else 0)
    :: LittleEndian.encode 2 bytes.length
    ++ LittleEndian.encode 2 (storedLimit - bytes.length)
    ++ bytes

/-- Stored blocks for all bytes. -/
def storedBlocks (bytes : List UInt8) : List UInt8 :=
  if bytes.length ≤ storedLimit then storedBlock true bytes
  else storedBlock false (bytes.take storedLimit) ++ storedBlocks (bytes.drop storedLimit)
termination_by bytes.length
decreasing_by
  simp only [List.length_drop, storedLimit] at *
  omega

/-- A zlib stream of some bytes. -/
def deflate (bytes : List UInt8) : List UInt8 :=
  [0x78, 0x01] ++ storedBlocks bytes ++ checksumBytes (adler32 bytes)

end SamplingProfile.Zlib
