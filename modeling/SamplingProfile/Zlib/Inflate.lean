-- Reading zlib streams: the bytes of a stream give its content, and bytes that are no whole
-- stream give nothing. A distance that points before the first byte of the content finds
-- zeros there. A stream can be read up to a limit of its content, so that a few bytes never
-- grow into many that nobody asked for.
import SamplingProfile.Zlib.Bits
import SamplingProfile.Zlib.Adler32

namespace SamplingProfile.Zlib

/-- A stream being inflated, and the content so far. -/
structure Inflater where
  bits : Bits
  content : Array UInt8 := #[]
  /-- The most bytes that the content may have, if there is a limit. -/
  limit? : Option Nat := none

/-- Whether the content has reached its limit. -/
def Inflater.isFull (s : Inflater) : Bool := s.limit?.any (· ≤ s.content.size)

/-- A step of inflating, which fails on bytes that are no zlib stream. -/
abbrev Inflate := StateT Inflater Option

namespace Inflate

/-! ## Bits and bytes -/

/-- A step that takes something from the stream. -/
def take (next? : Bits → Option (α × Bits)) : Inflate α := fun s =>
  (next? s.bits).map fun r => (r.1, { s with bits := r.2 })

/-- The next bit. -/
def bit : Inflate Nat := Bool.toNat <$> take Bits.next?

/-- A number of some bits, the lowest first. -/
def number : (width : Nat) → Inflate Nat
  | 0 => return 0
  | width + 1 => do
    let low ← bit
    return low + 2 * (← number width)

/-- Numbers of some bits each. -/
def numbers (width : Nat) : (count : Nat) → Inflate (List Nat)
  | 0 => return []
  | count + 1 => do
    let first ← number width
    return first :: (← numbers width count)

/-- The number of bits that are left. -/
def bitsLeft : Inflate Nat := take fun bits => some (bits.length, bits)

/-- Drops the rest of a byte that was begun. -/
def align : Inflate Unit := take fun bits => some ((), bits.align)

/-- The next whole byte. -/
def byte : Inflate UInt8 := take Bits.nextByte?

/-- Adds a byte to the content, which must not be full. -/
def push (b : UInt8) : Inflate Unit := fun s =>
  if s.isFull then none else some ((), { s with content := s.content.push b })

/-- A step that looks at the content. -/
def look (f : Array UInt8 → α) : Inflate α := fun s => some (f s.content, s)

/-- The byte of the content at some distance from its end, a zero before its first byte. -/
def lookBack (distance : Nat) : Inflate UInt8 := look fun content =>
  if distance ≤ content.size then content[content.size - distance]?.getD 0 else 0

/-! ## Codes -/

/-- The symbols of a code by the length of their code words, from one bit up to 15. Among
words of one length the symbols are in order. -/
structure Code where
  levels : List (List Nat)

/-- The code in which each symbol has a word of the given length, or none for the length 0.
The words must fill the code, unless there is none or only one, of a single bit. -/
def Code.ofLengths? (lengths : List Nat) : Option Code :=
  let used := lengths.filter (· ≠ 0)
  if used = [] ∨ used = [1] ∨ used.foldl (fun sum n => sum + (1 <<< (15 - n))) 0 = 1 <<< 15 then
    some ⟨(List.range' 1 15).map fun n =>
      lengths.zipIdx.filterMap fun (length, symbol) =>
        if length = n then some symbol else none⟩
  else none

/-- Reads a symbol bit by bit. The words of one level come before those of the deeper ones;
`offset` is the distance of the word so far from the first word of its level. -/
def symbolIn : (levels : List (List Nat)) → (offset : Nat) → Inflate Nat
  | [], _ => failure
  | level :: deeper, offset => do
    let offset := 2 * offset + (← bit)
    match level[offset]? with
    | some symbol => return symbol
    | none => symbolIn deeper (offset - level.length)

/-- Reads a symbol of a code. -/
def symbol (code : Code) : Inflate Nat := symbolIn code.levels 0

/-! ## Blocks -/

/-- Copies bytes from the stream to the content. -/
def stored : (length : Nat) → Inflate Unit
  | 0 => return ()
  | length + 1 => do
    push (← byte)
    stored length

/-- A block that holds its bytes as they are. -/
def storedBlock : Inflate Unit := do
  align
  let length ← number 16
  let complement ← number 16
  if length + complement ≠ 65535 then failure
  stored length

/-- Repeats `length` bytes of the content, from `distance` bytes before its end on. -/
def repeatBack (distance : Nat) : (length : Nat) → Inflate Unit
  | 0 => return ()
  | length + 1 => do
    push (← lookBack distance)
    repeatBack distance length

/-- The lengths of repetitions, each with the number of bits that are added to it. -/
def lengthCodes : List (Nat × Nat) :=
  [(3, 0), (4, 0), (5, 0), (6, 0), (7, 0), (8, 0), (9, 0), (10, 0), (11, 1), (13, 1), (15, 1),
   (17, 1), (19, 2), (23, 2), (27, 2), (31, 2), (35, 3), (43, 3), (51, 3), (59, 3), (67, 4),
   (83, 4), (99, 4), (115, 4), (131, 5), (163, 5), (195, 5), (227, 5), (258, 0)]

/-- The distances of repetitions, each with the number of bits that are added to it. -/
def distanceCodes : List (Nat × Nat) :=
  [(1, 0), (2, 0), (3, 0), (4, 0), (5, 1), (7, 1), (9, 2), (13, 2), (17, 3), (25, 3), (33, 4),
   (49, 4), (65, 5), (97, 5), (129, 6), (193, 6), (257, 7), (385, 7), (513, 8), (769, 8),
   (1025, 9), (1537, 9), (2049, 10), (3073, 10), (4097, 11), (6145, 11), (8193, 12),
   (12289, 12), (16385, 13), (24577, 13)]

/-- The value of a symbol in a table of bases and added bits. -/
def extended (table : List (Nat × Nat)) (symbol : Nat) : Inflate Nat :=
  match table[symbol]? with
  | none => failure
  | some (base, width) => return base + (← number width)

/-- The symbols of a block up to its end. Each takes a bit or more, so `room`, the number of
bits, is enough of them. -/
def symbols (literals distances : Code) : (room : Nat) → Inflate Unit
  | 0 => failure
  | room + 1 => do
    let s ← symbol literals
    if s < 256 then
      push (UInt8.ofNat s)
      symbols literals distances room
    else if s = 256 then return ()
    else
      let length ← extended lengthCodes (s - 257)
      let distance ← extended distanceCodes (← symbol distances)
      repeatBack distance length
      symbols literals distances room

/-- The lengths of the words of the fixed codes. -/
def fixedLengths : List Nat × List Nat :=
  (List.replicate 144 8 ++ List.replicate 112 9 ++ List.replicate 24 7 ++ List.replicate 8 8,
   List.replicate 32 5)

/-- The order in which the lengths of the words for lengths are given. -/
def lengthOrder : List Nat := [16, 17, 18, 0, 8, 7, 9, 6, 10, 5, 11, 4, 12, 3, 13, 2, 14, 1, 15]

/-- Lengths of words, themselves in a code, until there are `total`. Each symbol gives one
length or more, so `total` is also room enough. The last length comes first. -/
def wordLengths (code : Code) (total : Nat) : (room : Nat) → List Nat → Inflate (List Nat)
  | 0, lengths => return lengths
  | room + 1, lengths => do
    if total ≤ lengths.length then return lengths
    let s ← symbol code
    if s < 16 then wordLengths code total room (s :: lengths)
    else if s = 16 then
      match lengths with
      | [] => failure
      | last :: _ =>
        let times := 3 + (← number 2)
        wordLengths code total room (List.replicate times last ++ lengths)
    else
      let times ← if s = 17 then (3 + ·) <$> number 3 else (11 + ·) <$> number 7
      wordLengths code total room (List.replicate times 0 ++ lengths)

/-- The code of some lengths of words. -/
def codeOf (lengths : List Nat) : Inflate Code :=
  match Code.ofLengths? lengths with
  | some code => return code
  | none => failure

/-- The two codes that a block brings with it. -/
def dynamicCodes : Inflate (Code × Code) := do
  let literalCount := 257 + (← number 5)
  let distanceCount := 1 + (← number 5)
  let lengthCount := 4 + (← number 4)
  if literalCount > 286 ∨ distanceCount > 30 then failure
  let given ← numbers 3 lengthCount
  let placed := lengthOrder.zip given
  let code ← codeOf ((List.range 19).map fun i => (placed.lookup i).getD 0)
  let total := literalCount + distanceCount
  let lengths ← wordLengths code total total []
  if lengths.length ≠ total then failure
  let lengths := lengths.reverse
  let literals ← codeOf (lengths.take literalCount)
  let distances ← codeOf (lengths.drop literalCount)
  return (literals, distances)

/-- A block of the kind that stands in front of it. -/
def block : Inflate Unit := do
  match ← number 2 with
  | 0 => storedBlock
  | 1 => symbols (← codeOf fixedLengths.1) (← codeOf fixedLengths.2) (← bitsLeft)
  | 2 =>
    let (literals, distances) ← dynamicCodes
    symbols literals distances (← bitsLeft)
  | _ => failure

/-- The blocks of a stream up to the last one. -/
def blocks : (room : Nat) → Inflate Unit
  | 0 => failure
  | room + 1 => do
    let last ← bit
    block
    if last = 1 then return () else blocks room

/-! ## Streams -/

/-- The two bytes in front of a stream: the method, the window and a check of the two. -/
def header : Inflate Unit := do
  let method ← number 8
  let flags ← number 8
  if (method * 256 + flags) % 31 ≠ 0 ∨ flags.testBit 5 ∨ method % 16 ≠ 8 ∨ method / 16 > 7 then
    failure

/-- The checksum of the content. -/
def contentSum : Inflate Nat := look fun content => adler32 content.toList

/-- The checksum behind the last block, which must be that of the content. -/
def checksum : Inflate Unit := do
  align
  let a ← number 8
  let b ← number 8
  let c ← number 8
  let d ← number 8
  if ((a * 256 + b) * 256 + c) * 256 + d ≠ (← contentSum) then failure

/-- A whole stream. -/
def stream : Inflate Unit := do
  header
  blocks (← bitsLeft)
  checksum

end Inflate

/-- The content of a zlib stream, `none` if the bytes are no such stream. What follows the
stream is not looked at. -/
def inflate? (bytes : List UInt8) : Option (List UInt8) :=
  (Inflate.stream { bits := .ofBytes bytes }).map fun r => r.2.content.toList

/-- The content of a zlib stream if it has no more bytes than the limit. No more than these
are ever inflated. -/
def inflateWithin? (limit : Nat) (bytes : List UInt8) : Option (List UInt8) :=
  (Inflate.stream { bits := .ofBytes bytes, limit? := some limit }).map fun r =>
    r.2.content.toList

end SamplingProfile.Zlib
