-- Numbers of a fixed number of bytes, the lowest byte first.

namespace SamplingProfile.LittleEndian

/-- The lowest `width` bytes of a number. -/
def encode : (width : Nat) → Nat → List UInt8
  | 0, _ => []
  | width + 1, n => UInt8.ofNat n :: encode width (n / 256)

/-- The number that some bytes stand for. -/
def decode : List UInt8 → Nat
  | [] => 0
  | b :: rest => b.toNat + 256 * decode rest

/-- The number of values that some bytes can take. -/
def values : (width : Nat) → Nat
  | 0 => 1
  | width + 1 => 256 * values width

@[simp] theorem length_encode (width n : Nat) : (encode width n).length = width := by
  induction width generalizing n with
  | zero => rfl
  | succ width ih => simp [encode, ih]

theorem decode_lt (bytes : List UInt8) : decode bytes < values bytes.length := by
  induction bytes with
  | nil => simp [decode, values]
  | cons b rest ih =>
    have := b.toNat_lt
    simp only [decode, List.length_cons, values]
    omega

/-- What does not fit in the bytes is dropped. -/
theorem decode_encode (width n : Nat) : decode (encode width n) = n % values width := by
  induction width generalizing n with
  | zero => simp [encode, decode, values, Nat.mod_one]
  | succ width ih =>
    simp only [encode, decode, ih, UInt8.toNat_ofNat', values, Nat.mod_mul]

theorem encode_decode (bytes : List UInt8) : encode bytes.length (decode bytes) = bytes := by
  induction bytes with
  | nil => rfl
  | cons b rest ih =>
    have hb := b.toNat_lt
    simp only [List.length_cons, encode, decode]
    have h1 : (b.toNat + 256 * decode rest) / 256 = decode rest := by omega
    have h2 : UInt8.ofNat (b.toNat + 256 * decode rest) = b := by
      apply UInt8.toNat_inj.1
      simp only [UInt8.toNat_ofNat']
      omega
    rw [h1, h2, ih]

end SamplingProfile.LittleEndian
