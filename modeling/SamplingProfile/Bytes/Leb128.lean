-- Numbers of any size in groups of seven bits, the lowest group first. All bytes of a
-- number but the last have their top bit set. A number of more than 64 bits is not read.

namespace SamplingProfile.Leb128

/-- A number in the fewest bytes. -/
def encode (n : Nat) : List UInt8 :=
  if n < 128 then [UInt8.ofNat n] else UInt8.ofNat (n % 128 + 128) :: encode (n / 128)
termination_by n

/-- Why bytes do not start with a number. -/
inductive Fault
  /-- No byte ends the number. -/
  | truncated
  /-- The number has more than 64 bits. -/
  | oversized
deriving DecidableEq, Repr

/-- The number whose groups begin with the one of index `index`, divided by the weight of
that group, and the number of bytes from the first group on. The tenth group holds one bit. -/
def decodeFrom : (index : Nat) → List UInt8 → Except Fault (Nat × Nat)
  | _, [] => .error .truncated
  | index, b :: rest =>
    if index = 9 then
      if b ≤ 1 then .ok (b.toNat, index + 1)
      else if (b :: rest).any (· < 128) then .error .oversized
      else .error .truncated
    else if b < 128 then .ok (b.toNat, index + 1)
    else
      match decodeFrom (index + 1) rest with
      | .ok (high, used) => .ok (b.toNat - 128 + 128 * high, used)
      | .error fault => .error fault

/-- The number at the front of some bytes, and how many bytes it takes. -/
def decode (bytes : List UInt8) : Except Fault (Nat × Nat) := decodeFrom 0 bytes

end SamplingProfile.Leb128
