-- What a single line of a text profile says. A function has a line of its own with its
-- name, its total and how often it was entered. A line of its body begins with a location,
-- and holds a count with the functions called from there, or a callee with its total.
import SamplingProfile.Text.Line
import SamplingProfile.Text.Decimal
import SamplingProfile.FunctionProfile.Basic

namespace SamplingProfile.Text

/-! ## Tokens -/

/-- A number of 64 bits in decimal digits. -/
def readDecimal : Reader Nat := do
  let span ← get
  let digits := span.bytes.takeWhile Decimal.isDigit
  if digits = [] then Reader.fail .expectedDigit
  let n := Decimal.decode digits
  if n < UInt64.size then
    set (span.drop digits.length)
    return n
  else Reader.fail .decimalTooLarge

/-- The end of the span. -/
def readEnd : Reader Unit := do
  if (← get).bytes ≠ [] then Reader.fail .expectedEnd

/-- Spaces and tabs, at least one of them. -/
def readBlanks : Reader Unit := do
  let span ← get
  match (span.bytes.takeWhile isBlank).length with
  | 0 => Reader.fail .expectedBlank
  | n => set (span.drop n)

/-- One given byte, or the problem that it is missing. -/
def readByte (b : UInt8) (problem : Problem) : Reader Unit := do
  let span ← get
  if span.bytes.head? = some b then set (span.drop 1) else Reader.fail problem

/-- A decimal number of at most 16 bits. -/
def readHalf : Reader UInt32 := do
  let span ← get
  let n ← readDecimal
  if 0xffff < n then Reader.failAt span .exceeds16Bits
  return UInt32.ofNat n

/-- A line, a discriminator if it is not 0 behind a dot, and a colon. A dot without a number
behind it is met where the colon should be. -/
def readLocation : Reader Location := do
  let line ← readHalf
  let discriminator ← Reader.optional do
    readByte 0x2e .expectedColon
    readHalf
  readByte 0x3a .expectedColon
  return Location.ofLine line (discriminator.getD 0)

/-- What stands before the last colon and what stands behind it. -/
def splitLastColon (span : Span) : Option (Span × Span) :=
  match (span.bytes.reverse.dropWhile (· ≠ 0x3a)).tail? with
  | none => none
  | some before =>
    some (⟨span.start, before.reverse⟩, span.drop (before.length + 1))

/-- A decimal number up to the end. -/
def readNumber : Reader Nat := do
  let n ← readDecimal
  readEnd
  return n

/-- A name and a number behind the last colon. -/
def readNameCount (span : Span) : Except ParseError (String × Nat) :=
  match splitLastColon span with
  | none => .error { problem := .expectedNameCount, offset := span.start }
  | some (name, count) =>
    match decodeText? name.bytes with
    | none => .error { problem := .invalidText, offset := span.start }
    | some s => do
      let (n, _) ← readNumber count
      return (s, n)

/-! ## Lines -/

/-- The line of a function: its name, its total, and how often it was entered. The last
number is read first. -/
def readFunctionLine (span : Span) : Except ParseError (String × Nat × Nat) :=
  match splitLastColon span with
  | none => .error { problem := .expectedFunctionHeader, offset := span.start }
  | some (front, entries) => do
    let (entryCount, _) ← readNumber entries
    let (name, total) ← readNameCount front
    return (name, total, entryCount)

/-- What a line of a body says. -/
inductive BodyLine
  /-- A location was sampled, and functions were called from it. -/
  | sample (location : Location) (count : Count) (targets : List (String × Count))
  /-- A callee was inlined; its body follows. -/
  | callee (site : Callsite)
deriving DecidableEq, Repr

/-- The words between spaces and tabs. -/
def words (span : Span) : List Span :=
  match _h : span.bytes.dropWhile isBlank with
  | [] => []
  | b :: rest =>
    let n := span.bytes.length - (b :: rest).length
    let word := (b :: rest).takeWhile fun b => !isBlank b
    ⟨span.start + n, word⟩ :: words ⟨span.start + n + word.length, (b :: rest).drop word.length⟩
termination_by span.bytes.length
decreasing_by
  have h1 : isBlank b = false := by
    have := List.head?_dropWhile_not isBlank span.bytes
    rw [_h] at this
    simpa using this
  have h2 : (b :: rest).length ≤ span.bytes.length := by
    rw [← _h]
    exact (List.dropWhile_sublist _).length_le
  simp [h1] at h2 ⊢
  omega

/-- The functions called from a location, each with its count. -/
def readTargets (span : Span) : Except ParseError (List (String × Count)) :=
  (words span).mapM fun word => do
    let (name, count) ← readNameCount word
    return (name, UInt64.ofNat count)

/-- A line of a body. A number that is followed by nothing or by blanks is a count; all else
is a callee with its total. -/
def readBodyLine (span : Span) : Except ParseError BodyLine := do
  let (location, rest) ← (readLocation <* readBlanks) span
  match readNumber rest with
  | .ok (count, _) => return .sample location (UInt64.ofNat count) []
  | .error _ =>
    match (readDecimal <* readBlanks) rest with
    | .ok (count, targets) =>
      return .sample location (UInt64.ofNat count) (← readTargets targets)
    | .error _ =>
      let (name, _) ← readNameCount rest
      return .callee ⟨location, name⟩

end SamplingProfile.Text
