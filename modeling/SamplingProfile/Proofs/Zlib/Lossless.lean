-- Streams that give their content back. What a writer of zlib streams makes of its bytes is up
-- to the writer; all that readers rely on is that nothing is lost. The writer of stored blocks
-- is one that loses nothing, whatever the bytes and however many blocks they take.
import Mathlib.Algebra.Ring.Nat
import SamplingProfile.Zlib.Limit
import SamplingProfile.Zlib.Stored

namespace SamplingProfile.Zlib

/-- Inflating what was deflated gives the bytes back. -/
def Lossless (deflate : List UInt8 → List UInt8) : Prop :=
  ∀ plain, inflate? (deflate plain) = some plain

theorem Lossless.inflateWithin? {deflate : List UInt8 → List UInt8} (hd : Lossless deflate)
    (plain : List UInt8) :
    Zlib.inflateWithin? plain.length (deflate plain) = some plain := by
  rw [inflateWithin?_eq, hd plain]
  simp [Option.filter]

/-- There is no stream without bytes. -/
theorem Lossless.ne_nil {deflate : List UInt8 → List UInt8} (hd : Lossless deflate)
    (plain : List UInt8) : deflate plain ≠ [] := by
  intro hnil
  have h := hd plain
  rw [hnil] at h
  cases h

namespace Inflate

/-! ## Numbers of whole bytes -/

/-- The number that some bits stand for, the lowest first. -/
def ofBits : List Bool → Nat
  | [] => 0
  | bit :: rest => bit.toNat + 2 * ofBits rest

theorem ofBits_bitsOf (b : UInt8) : ofBits (bitsOf b) = b.toNat := by
  have hall : ∀ n < 256, ofBits ((List.range 8).map fun i => n.testBit i) = n := by
    decide +kernel
  exact hall b.toNat b.toNat_lt

variable (content : Array UInt8) (limit? : Option Nat)

theorem bit_cons (bit : Bool) (begun : List Bool) (bytes : List UInt8) :
    Inflate.bit ⟨⟨bit :: begun, bytes⟩, content, limit?⟩
      = some (bit.toNat, ⟨⟨begun, bytes⟩, content, limit?⟩) := rfl

/-- The bits that were begun are the lowest of a number. -/
theorem number_begun (begun : List Bool) (bytes : List UInt8) (width : Nat) :
    number (begun.length + width) ⟨⟨begun, bytes⟩, content, limit?⟩
      = (number width ⟨⟨[], bytes⟩, content, limit?⟩).map fun r =>
          (ofBits begun + 2 ^ begun.length * r.1, r.2) := by
  induction begun with
  | nil =>
    rw [List.length_nil, Nat.zero_add]
    cases number width ⟨⟨[], bytes⟩, content, limit?⟩ with
    | none => rfl
    | some r => simp [ofBits]
  | cons bit begun ih =>
    rw [List.length_cons, Nat.succ_add, number, bind_apply, bit_cons, Option.bind_some,
      bind_apply, ih]
    cases number width ⟨⟨[], bytes⟩, content, limit?⟩ with
    | none => rfl
    | some r =>
      have hvalue : bit.toNat + 2 * (ofBits begun + 2 ^ begun.length * r.1)
          = ofBits (bit :: begun) + 2 ^ (begun.length + 1) * r.1 := by
        rw [ofBits, Nat.pow_succ, Nat.mul_comm (2 ^ begun.length) 2, Nat.mul_assoc]
        omega
      exact congrArg (fun n => some (n, r.2)) hvalue

/-- A byte gives the lowest eight bits of a number. -/
theorem number_byte (b : UInt8) (bytes : List UInt8) (width : Nat) :
    number (8 + width) ⟨⟨[], b :: bytes⟩, content, limit?⟩
      = (number width ⟨⟨[], bytes⟩, content, limit?⟩).map fun r =>
          (b.toNat + 256 * r.1, r.2) := by
  have hopen : number (8 + width) ⟨⟨[], b :: bytes⟩, content, limit?⟩
      = number ((bitsOf b).length + width) ⟨⟨bitsOf b, bytes⟩, content, limit?⟩ := by
    show number (8 + width) _ = number (8 + width) _
    rw [Nat.add_comm, number, bind_apply, bind_apply]
    rfl
  have hpow : 2 ^ (bitsOf b).length = 256 := by simp [bitsOf]
  rw [hopen, number_begun, ofBits_bitsOf, hpow]

theorem number_littleEndian (count n : Nat) (back : List UInt8) :
    number (8 * count) ⟨⟨[], LittleEndian.encode count n ++ back⟩, content, limit?⟩
      = some (n % LittleEndian.values count, ⟨⟨[], back⟩, content, limit?⟩) := by
  induction count generalizing n with
  | zero => rw [LittleEndian.values, Nat.mod_one]; rfl
  | succ count ih =>
    have hwidth : 8 * (count + 1) = 8 + 8 * count := by omega
    rw [hwidth, LittleEndian.encode, List.cons_append, number_byte, ih, Option.map_some,
      LittleEndian.values, Nat.mod_mul, UInt8.toNat_ofNat']

/-! ## Blocks -/

/-- Stored bytes go to the content as they are. -/
theorem stored_append (bytes back : List UInt8) :
    stored bytes.length ⟨⟨[], bytes ++ back⟩, content, none⟩
      = some ((), ⟨⟨[], back⟩, content ++ bytes, none⟩) := by
  induction bytes generalizing content with
  | nil => simp [stored]; rfl
  | cons b bytes ih =>
    have hpush : stored (bytes.length + 1) ⟨⟨[], b :: bytes ++ back⟩, content, none⟩
        = stored bytes.length ⟨⟨[], bytes ++ back⟩, content.push b, none⟩ := rfl
    rw [List.length_cons, hpush, ih]
    have hcontent : content.push b ++ bytes = content ++ (b :: bytes) := by
      apply Array.toList_inj.1
      simp
    rw [hcontent]

theorem storedBlock_eq (begun : List Bool) {bytes : List UInt8}
    (hlen : bytes.length ≤ storedLimit) (back : List UInt8) :
    storedBlock ⟨⟨begun, LittleEndian.encode 2 bytes.length
        ++ (LittleEndian.encode 2 (storedLimit - bytes.length) ++ (bytes ++ back))⟩,
      content, none⟩ = some ((), ⟨⟨[], back⟩, content ++ bytes, none⟩) := by
  unfold storedLimit at hlen ⊢
  have hvalues : LittleEndian.values 2 = 65536 := rfl
  have hlength := number_littleEndian content none 2 bytes.length
    (LittleEndian.encode 2 (65535 - bytes.length) ++ (bytes ++ back))
  have hcomplement := number_littleEndian content none 2 (65535 - bytes.length) (bytes ++ back)
  rw [hvalues, Nat.mod_eq_of_lt (by omega)] at hlength hcomplement
  have halign : ∀ bytes' : List UInt8, align ⟨⟨begun, bytes'⟩, content, none⟩
      = some ((), ⟨⟨[], bytes'⟩, content, none⟩) := fun _ => rfl
  rw [storedBlock, bind_apply, halign, Option.bind_some, bind_apply, hlength, Option.bind_some,
    bind_apply, hcomplement, Option.bind_some]
  dsimp only
  rw [if_neg (by omega)]
  exact stored_append content bytes back

/-- In front of a stored block stand the mark of the last block and two bits for the kind. -/
theorem block_storedBlock (bytes back : List UInt8) (hlen : bytes.length ≤ storedLimit) :
    block ⟨⟨List.replicate 7 false, LittleEndian.encode 2 bytes.length
        ++ (LittleEndian.encode 2 (storedLimit - bytes.length) ++ (bytes ++ back))⟩,
      content, none⟩ = some ((), ⟨⟨[], back⟩, content ++ bytes, none⟩) := by
  rw [← storedBlock_eq content (List.replicate 5 false) hlen back]
  generalize LittleEndian.encode 2 bytes.length
    ++ (LittleEndian.encode 2 (storedLimit - bytes.length) ++ (bytes ++ back)) = rest
  have hkind : number 2 ⟨⟨List.replicate 7 false, rest⟩, content, none⟩
      = some (0, ⟨⟨List.replicate 5 false, rest⟩, content, none⟩) := rfl
  rw [block, bind_apply, hkind, Option.bind_some]
  rfl

theorem bit_storedBlock (last : Bool) (bytes back : List UInt8) :
    bit ⟨⟨[], Zlib.storedBlock last bytes ++ back⟩, content, none⟩
      = some (last.toNat, ⟨⟨List.replicate 7 false, LittleEndian.encode 2 bytes.length
          ++ (LittleEndian.encode 2 (storedLimit - bytes.length) ++ (bytes ++ back))⟩,
        content, none⟩) := by
  simp only [Zlib.storedBlock, List.append_assoc, List.cons_append]
  generalize LittleEndian.encode 2 bytes.length
    ++ (LittleEndian.encode 2 (storedLimit - bytes.length) ++ (bytes ++ back)) = rest
  cases last <;> rfl

theorem blocks_storedBlocks (bytes back : List UInt8) {room : Nat}
    (hroom : (storedBlocks bytes).length ≤ room) :
    blocks room ⟨⟨[], storedBlocks bytes ++ back⟩, content, none⟩
      = some ((), ⟨⟨[], back⟩, content ++ bytes, none⟩) := by
  fun_induction storedBlocks bytes generalizing content room with
  | case1 bytes hlen =>
    obtain ⟨room, rfl⟩ : ∃ r, room = r + 1 := by
      refine ⟨room - 1, ?_⟩
      simp only [Zlib.storedBlock, List.cons_append, List.length_cons] at hroom
      omega
    rw [blocks, bind_apply, bit_storedBlock, Option.bind_some, bind_apply,
      block_storedBlock content bytes back hlen, Option.bind_some]
    rfl
  | case2 bytes hlen ih =>
    have hfirst : (bytes.take storedLimit).length ≤ storedLimit := List.length_take_le _ _
    simp only [Zlib.storedBlock, List.cons_append, List.length_cons, List.length_append] at hroom
    obtain ⟨room, rfl⟩ : ∃ r, room = r + 1 := ⟨room - 1, by omega⟩
    rw [List.append_assoc, blocks, bind_apply, bit_storedBlock, Option.bind_some, bind_apply,
      block_storedBlock content _ _ hfirst, Option.bind_some]
    dsimp only
    have hcontent : content ++ bytes.take storedLimit ++ bytes.drop storedLimit
        = content ++ bytes := by
      apply Array.toList_inj.1
      simp
    rw [if_neg (by decide), ih (content ++ bytes.take storedLimit) (by omega), hcontent]

/-! ## Streams -/

theorem adler32_lt (bytes : List UInt8) : adler32 bytes < 4294967296 := by
  unfold adler32
  have hsums : ∀ (bytes : List UInt8) (s : Nat × Nat), s.1 < 65521 ∧ s.2 < 65521 →
      let sums := bytes.foldl (fun (s : Nat × Nat) b =>
        let low := (s.1 + b.toNat) % 65521
        (low, (s.2 + low) % 65521)) s
      sums.1 < 65521 ∧ sums.2 < 65521 := by
    intro bytes
    induction bytes with
    | nil => exact fun _ h => h
    | cons b bytes ih =>
      intro s h
      exact ih _ ⟨Nat.mod_lt _ (by omega), Nat.mod_lt _ (by omega)⟩
  have h := hsums bytes (1, 0) ⟨by omega, by omega⟩
  dsimp only at h ⊢
  omega

theorem number_eight (b : UInt8) (bytes : List UInt8) :
    number 8 ⟨⟨[], b :: bytes⟩, content, limit?⟩
      = some (b.toNat, ⟨⟨[], bytes⟩, content, limit?⟩) :=
  number_byte content limit? b bytes 0

/-- Four bytes, the highest first, are the number that they were taken from. -/
theorem checksum_value {n : Nat} (h : n < 4294967296) :
    ((n / 16777216 % 256 * 256 + n / 65536 % 256) * 256 + n / 256 % 256) * 256 + n % 256
      = n := by
  have htop : n / 16777216 % 256 = n / 65536 / 256 := by
    rw [Nat.div_div_eq_div_mul]
    omega
  have hmiddle : n / 65536 = n / 256 / 256 := (Nat.div_div_eq_div_mul n 256 256).symm
  rw [htop, Nat.div_add_mod', hmiddle, Nat.div_add_mod', Nat.div_add_mod']

theorem checksum_checksumBytes (back : List UInt8) :
    checksum ⟨⟨[], checksumBytes (adler32 content.toList) ++ back⟩, content, none⟩
      = some ((), ⟨⟨[], back⟩, content, none⟩) := by
  have hvalue := checksum_value (adler32_lt content.toList)
  have halign : ∀ bytes : List UInt8, align ⟨⟨[], bytes⟩, content, none⟩
      = some ((), ⟨⟨[], bytes⟩, content, none⟩) := fun _ => rfl
  have hsum : ∀ bits, contentSum ⟨bits, content, none⟩
      = some (adler32 content.toList, ⟨bits, content, none⟩) := fun _ => rfl
  rw [checksum, bind_apply, halign, Option.bind_some, checksumBytes]
  simp only [List.cons_append, List.nil_append]
  rw [bind_apply, number_eight, Option.bind_some, bind_apply, number_eight, Option.bind_some,
    bind_apply, number_eight, Option.bind_some, bind_apply, number_eight, Option.bind_some,
    bind_apply, hsum, Option.bind_some]
  simp only [UInt8.toNat_ofNat']
  rw [if_neg (not_not_intro hvalue)]
  rfl

theorem header_eq (bytes : List UInt8) :
    header ⟨⟨[], 0x78 :: 0x01 :: bytes⟩, content, none⟩
      = some ((), ⟨⟨[], bytes⟩, content, none⟩) := by
  rw [header, bind_apply, number_eight, Option.bind_some, bind_apply, number_eight,
    Option.bind_some]
  dsimp only
  rw [if_neg (by decide)]
  rfl

end Inflate

/-- The writer of stored blocks loses nothing. -/
theorem lossless_deflate : Lossless deflate := by
  intro plain
  have hroom : ∀ bytes : List UInt8, bytes.length ≤ (Bits.ofBytes bytes).length := by
    intro bytes
    simp only [Bits.ofBytes, Bits.length, List.length_nil]
    omega
  have hleft : ∀ bytes : List UInt8, Inflate.bitsLeft ⟨⟨[], bytes⟩, #[], none⟩
      = some ((Bits.ofBytes bytes).length, ⟨⟨[], bytes⟩, #[], none⟩) := fun _ => rfl
  have hsum := Inflate.checksum_checksumBytes plain.toArray []
  have hblocks := Inflate.blocks_storedBlocks #[] plain (checksumBytes (adler32 plain))
    (Nat.le_trans (by simp) (hroom (storedBlocks plain ++ checksumBytes (adler32 plain))))
  have hcontent : (#[] : Array UInt8) ++ plain = plain.toArray := by
    apply Array.toList_inj.1
    simp
  rw [List.append_nil] at hsum
  rw [hcontent] at hblocks
  have hstream : Inflate.stream ⟨.ofBytes (deflate plain), #[], none⟩
      = some ((), ⟨⟨[], []⟩, plain.toArray, none⟩) := by
    have hbytes : deflate plain
        = 0x78 :: 0x01 :: (storedBlocks plain ++ checksumBytes (adler32 plain)) := by
      rw [deflate, List.append_assoc]
      rfl
    rw [hbytes, Bits.ofBytes, Inflate.stream, Inflate.bind_apply, Inflate.header_eq,
      Option.bind_some, Inflate.bind_apply, hleft, Option.bind_some, Inflate.bind_apply, hblocks,
      Option.bind_some]
    exact hsum
  rw [inflate?, hstream]
  rfl

end SamplingProfile.Zlib
