-- Lists of names as they stand in a profile: how many names, how many bytes they take, how
-- many bytes of compressed data hold them, and then the names, each behind its length. No
-- compressed data at all means that the names follow as they are.
import SamplingProfile.Reading.Reader
import SamplingProfile.Bytes.Leb128
import SamplingProfile.Zlib.Inflate
import SamplingProfile.Zlib.Stored

namespace SamplingProfile

/-- A number in groups of seven bits. -/
def Reader.leb128 : Reader Nat := fun span =>
  match Leb128.decode span.bytes with
  | .ok (n, used) => .ok (n, span.drop used)
  | .error .truncated => failAt span .truncatedNumber span
  | .error .oversized => failAt span .oversizedNumber span

namespace NameList

/-! ## Reading -/

/-- A name behind its length. -/
def name : Reader String := do Reader.text (← Reader.leb128)

/-- Names up to the end of the span. Each takes a byte or more, so `room`, the number of
bytes, is enough of them. -/
def names : (room : Nat) → Reader (List String)
  | 0 => return []
  | room + 1 => do
    if (← get).bytes.isEmpty then return []
    let first ← name
    return first :: (← names room)

/-- All names of a payload. -/
def payloadNames (payload : Span) : Except ParseError (List String) :=
  match names payload.bytes.length payload with
  | .ok (found, _) => .ok found
  | .error e => .error e

/-- The names of a compressed payload, which must give exactly `size` bytes and is inflated no
further. Errors in what comes out of it are met at the payload. -/
def compressedNames (payload : Span) (size : Nat) : Except ParseError (List String) :=
  match Zlib.inflateWithin? size payload.bytes with
  | none => .error { problem := .notDecompressed, offset := payload.start }
  | some plain =>
    if plain.length ≠ size then
      .error { problem := .notDecompressed, offset := payload.start }
    else
      match payloadNames (.ofBytes plain) with
      | .ok found => .ok found
      | .error _ => .error { problem := .malformedCompressedList, offset := payload.start }

/-- A list of names. -/
def read : Reader (List String) := do
  let count ← Reader.leb128
  let size ← Reader.leb128
  let compressed ← Reader.leb128
  let span ← get
  let length := if compressed = 0 then size else compressed
  Reader.ensure length
  let payload : Span := ⟨span.start, ← Reader.take length⟩
  let found ←
    if compressed = 0 then
      match payloadNames payload with
      | .ok found => pure found
      | .error e => throw (e.within .stringList payload.start)
    else
      match compressedNames payload size with
      | .ok found => pure found
      | .error e => throw e
  if found.length ≠ count then Reader.failAt span .listLengthMismatch
  return found

/-! ## Writing -/

/-- The names, each behind its length. -/
def payload (list : List String) : List UInt8 :=
  list.flatMap fun s => Leb128.encode (encodeText s).length ++ encodeText s

/-- The bytes of a list of names, compressed by any writer of zlib streams. An empty payload is
not worth compressing. -/
def write (list : List String) (compress : Bool)
    (deflate : List UInt8 → List UInt8 := Zlib.deflate) : List UInt8 :=
  let plain := payload list
  Leb128.encode list.length ++ Leb128.encode plain.length ++
    if compress ∧ plain ≠ [] then
      let compressed := deflate plain
      Leb128.encode compressed.length ++ compressed
    else Leb128.encode 0 ++ plain

end NameList

end SamplingProfile
