-- Profiles: the functions that were read together with what the file says beside them. The
-- form of a file is found from its first bytes.
import SamplingProfile.Binary.Read
import SamplingProfile.Store.Summary
import SamplingProfile.Text.Read

namespace SamplingProfile

/-- The form in which a profile is kept. -/
inductive Format
  | binary (version : Binary.Version)
  | text
deriving DecidableEq, Repr

/-- A profile as it was read. A summary is there only if the file has one. -/
structure Profile where
  format : Format
  store : Store
  summary? : Option Summary
deriving DecidableEq

/-- Why bytes are no profile. -/
inductive ReadError
  | unrecognizedFormat
  | unsupportedVersion (version : Nat)
  | malformed (e : ParseError)
deriving DecidableEq, Repr

/-- What is said of the error. -/
def ReadError.message : ReadError → String
  | .unrecognizedFormat => "Unsupported sample profile format"
  | .unsupportedVersion version => s!"Unsupported binary profile version {version}"
  | .malformed e => s!"Malformed profile: {e.message}"

namespace Profile

/-- The number of the version of a binary profile. -/
def version? (p : Profile) : Option Nat :=
  match p.format with
  | .binary v => some v.number
  | .text => none

/-- The summary of the file, or if it has none the summary of the store. -/
def summary (p : Profile) : Except SummaryError Summary :=
  match p.summary? with
  | some s => .ok s
  | none => p.store.summary defaultCutoffs

/-! ## Reading -/

/-- A binary profile behind its version number. -/
def ofBinaryContent (v : Binary.Version) : Reader Profile := do
  let (store, summary?) ← v.layout.readContent
  return { format := .binary v, store, summary? }

/-- A binary profile. A version that is not known is a problem of the first byte. -/
def binaryReader : Reader Profile := do
  let span ← get
  match Binary.Version.ofNumber? (← Binary.readHeader) with
  | some v => ofBinaryContent v
  | none => Reader.failAt span .unsupportedVersion

/-- Reads a binary profile. A version that is not known is an error of its own. -/
def ofBinary (bytes : List UInt8) : Except ReadError Profile :=
  match Binary.readHeader (.ofBytes bytes) with
  | .error e => .error (.malformed e)
  | .ok (number, rest) =>
    match Binary.Version.ofNumber? number with
    | none => .error (.unsupportedVersion number)
    | some v =>
      match ofBinaryContent v rest with
      | .ok (p, _) => .ok p
      | .error e => .error (.malformed e)

/-- Reads a text profile. -/
def ofText (bytes : List UInt8) : Except ParseError Profile := do
  return { format := .text, store := ← Text.read bytes, summary? := none }

/-- Whether bytes may be a text profile: they are a text, and not the empty one. -/
def isText (bytes : List UInt8) : Bool := (decodeText? bytes).isSome ∧ bytes ≠ []

/-- Reads a profile in whatever form it is. -/
def ofBytes (bytes : List UInt8) : Except ReadError Profile :=
  if Binary.hasMagic bytes then ofBinary bytes
  else if isText bytes then (ofText bytes).mapError .malformed
  else .error .unrecognizedFormat

end Profile

end SamplingProfile
