-- Numbers in decimal digits, as bytes.

namespace SamplingProfile.Decimal

/-- Whether a byte is a digit. -/
def isDigit (b : UInt8) : Bool := 0x30 ≤ b ∧ b ≤ 0x39

/-- The number that digits stand for. -/
def decode (digits : List UInt8) : Nat :=
  digits.foldl (fun n b => 10 * n + (b.toNat - 0x30)) 0

/-- A number in digits, without zeros in front. -/
def encode (n : Nat) : List UInt8 :=
  if n < 10 then [UInt8.ofNat (0x30 + n)] else encode (n / 10) ++ [UInt8.ofNat (0x30 + n % 10)]
termination_by n

theorem encode_ne_nil (n : Nat) : encode n ≠ [] := by
  rw [encode]
  split <;> simp

theorem isDigit_of_lt {d : Nat} (h : d < 10) : isDigit (UInt8.ofNat (0x30 + d)) = true := by
  have : ∀ d < 10, isDigit (UInt8.ofNat (0x30 + d)) = true := by decide
  exact this d h

theorem toNat_digit {d : Nat} (h : d < 10) : (UInt8.ofNat (0x30 + d)).toNat - 0x30 = d := by
  have : ∀ d < 10, (UInt8.ofNat (0x30 + d)).toNat - 0x30 = d := by decide
  exact this d h

theorem isDigit_encode (n : Nat) : ∀ b ∈ encode n, isDigit b := by
  induction n using Nat.strongRecOn with
  | _ n ih =>
    rw [encode]
    split
    · rename_i h
      simpa using isDigit_of_lt h
    · intro b hb
      rcases List.mem_append.1 hb with hb | hb
      · exact ih (n / 10) (by omega) b hb
      · rw [List.mem_singleton.1 hb]
        exact isDigit_of_lt (Nat.mod_lt n (by decide))

/-- Digits read back as the number they were written for. -/
@[simp] theorem decode_encode (n : Nat) : decode (encode n) = n := by
  induction n using Nat.strongRecOn with
  | _ n ih =>
    rw [encode]
    split
    · rename_i h
      simpa [decode] using toNat_digit h
    · have hr := ih (n / 10) (by omega)
      simp only [decode] at hr
      simp only [decode, List.foldl_append, hr, List.foldl_cons, List.foldl_nil,
        toNat_digit (Nat.mod_lt n (by decide))]
      omega

end SamplingProfile.Decimal
