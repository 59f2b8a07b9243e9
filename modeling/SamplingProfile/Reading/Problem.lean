-- What can be wrong with the bytes of a profile, and how it is told: every error names the
-- problem with the byte where it was met, and then the sections around it with the bytes
-- where they began, from the innermost to the outermost.

namespace SamplingProfile

/-- Why reading stopped. -/
inductive Problem
  -- What follows has not the form that was tried.
  | missingBytes
  | expectedColon
  | expectedDigit
  | expectedBlank
  | expectedEnd
  | decimalTooLarge
  -- What follows has the form, but no profile holds it.
  | badMagic
  | unsupportedVersion
  | invalidSummaryFlag
  | truncatedNumber
  | oversizedNumber
  | exceeds32Bits
  | exceeds16Bits
  | lengthExceedsInput
  | invalidText
  | nameIndexOutOfRange
  | notDecompressed
  | malformedCompressedList
  | listLengthMismatch
  | inlinedTooDeep
  | duplicateTarget
  | duplicateLocation
  | duplicateCallsite
  | duplicateFunction
  | trailingData
  | expectedNameCount
  | expectedFunctionHeader
  | expectedFunction
  | inconsistentIndent
deriving DecidableEq, Repr

namespace Problem

/-- The kind of a problem, in one word. -/
def kind : Problem → String
  | missingBytes | expectedEnd | truncatedNumber | lengthExceedsInput | trailingData => "Eof"
  | expectedColon | badMagic | unsupportedVersion | invalidSummaryFlag => "Tag"
  | expectedDigit => "Digit"
  | expectedBlank | expectedFunction | inconsistentIndent => "Space"
  | decimalTooLarge => "MapRes"
  | oversizedNumber | exceeds32Bits | exceeds16Bits | inlinedTooDeep => "TooLarge"
  | invalidText | expectedNameCount | expectedFunctionHeader => "Char"
  | nameIndexOutOfRange => "MapOpt"
  | notDecompressed | malformedCompressedList | duplicateTarget | duplicateLocation
  | duplicateCallsite | duplicateFunction => "Verify"
  | listLengthMismatch => "Count"

/-- What is said of a problem that no other form can avoid; nothing where another form may
still be tried. -/
def detail? : Problem → Option String
  | missingBytes | expectedColon | expectedDigit | expectedBlank | expectedEnd
  | decimalTooLarge => none
  | badMagic => some "bad magic"
  | unsupportedVersion => some "unsupported version"
  | invalidSummaryFlag => some "invalid summary flag"
  | truncatedNumber => some "truncated leb128"
  | oversizedNumber => some "leb128 overflow"
  | exceeds32Bits => some "value exceeds 32 bits"
  | exceeds16Bits => some "value exceeds 16 bits"
  | lengthExceedsInput => some "length exceeds remaining input"
  | invalidText => some "invalid utf-8 in name"
  | nameIndexOutOfRange => some "name index out of range"
  | notDecompressed => some "failed to decompress string list"
  | malformedCompressedList => some "malformed compressed string list"
  | listLengthMismatch => some "string list length mismatch"
  | inlinedTooDeep => some "inline depth exceeded"
  | duplicateTarget => some "duplicate call target"
  | duplicateLocation => some "duplicate location"
  | duplicateCallsite => some "duplicate callsite"
  | duplicateFunction => some "duplicate function"
  | trailingData => some "trailing data after profile"
  | expectedNameCount => some "expected name:count"
  | expectedFunctionHeader => some "expected name:total:head"
  | expectedFunction => some "expected a function"
  | inconsistentIndent => some "inconsistent indentation"

/-- Whether no other form can avoid the problem. -/
def isFatal (p : Problem) : Bool := p.detail?.isSome

end Problem

/-- A part of a binary profile that errors name. -/
inductive Part
  | summary
  | nameTable
  | function
  | stringList
deriving DecidableEq, Repr

/-- The name of a part. -/
def Part.name : Part → String
  | .summary => "summary section"
  | .nameTable => "name table"
  | .function => "function"
  | .stringList => "string list"

/-- A problem, the byte where it was met, and the parts around it with their first bytes. -/
structure ParseError where
  problem : Problem
  offset : Nat
  parts : List (Part × Nat) := []
deriving DecidableEq, Repr

namespace ParseError

/-- The error inside a part that began at a byte. -/
def within (e : ParseError) (part : Part) (start : Nat) : ParseError :=
  { e with parts := e.parts ++ [(part, start)] }

/-- The steps of an error, from the innermost to the outermost, each with its byte. -/
def steps (e : ParseError) : List (String × Nat) :=
  (e.problem.kind, e.offset)
    :: (e.problem.detail?.toList.map fun text => (text, e.offset))
    ++ e.parts.map fun p => (p.1.name, p.2)

/-- The steps of an error in one line. -/
def message (e : ParseError) : String :=
  String.intercalate ", " (e.steps.map fun s => s!"{s.1} at byte {s.2}")

end ParseError

end SamplingProfile
