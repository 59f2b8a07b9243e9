-- The checksum at the end of a zlib stream.

namespace SamplingProfile.Zlib

/-- Two sums modulo 65521, of the bytes and of the sums so far, the second one on top. -/
def adler32 (bytes : List UInt8) : Nat :=
  let sums := bytes.foldl (fun (s : Nat × Nat) b =>
    let low := (s.1 + b.toNat) % 65521
    (low, (s.2 + low) % 65521)) (1, 0)
  sums.2 * 65536 + sums.1

/-- The four bytes of a checksum, the highest first. -/
def checksumBytes (n : Nat) : List UInt8 :=
  [UInt8.ofNat (n / 16777216), UInt8.ofNat (n / 65536), UInt8.ofNat (n / 256), UInt8.ofNat n]

end SamplingProfile.Zlib
