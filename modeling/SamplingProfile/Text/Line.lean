-- The lines of a text profile. Empty lines and comments say nothing; of every other line
-- count its indent, which shows what it belongs to, and what stands behind the indent.
import SamplingProfile.Reading.Reader

namespace SamplingProfile.Text

/-- A line that says something: how far it is indented, and what stands there. -/
structure Line where
  indent : Nat
  content : Span
deriving DecidableEq, Repr

/-- The byte that ends a line. -/
def newline : UInt8 := 0x0a

/-- Whether a byte is a space or a tab. -/
def isBlank (b : UInt8) : Bool := b = 0x20 ∨ b = 0x09

/-- Whether a byte is any white space of ASCII. -/
def isSpace (b : UInt8) : Bool := b = 0x20 ∨ b = 0x09 ∨ b = 0x0a ∨ b = 0x0c ∨ b = 0x0d

/-- Whether a content says nothing, as it is empty or begins a comment with a hash. -/
def isSilent : List UInt8 → Bool
  | [] => true
  | b :: _ => b = 0x23

/-- The bytes before the first newline, and what follows it, if there is one. -/
def splitLine (bytes : List UInt8) : List UInt8 × Option (List UInt8) :=
  (bytes.takeWhile (· ≠ newline), (bytes.dropWhile (· ≠ newline)).tail?)

theorem length_splitLine {bytes line rest : List UInt8}
    (h : splitLine bytes = (line, some rest)) : bytes.length = line.length + 1 + rest.length := by
  simp only [splitLine, Prod.mk.injEq] at h
  obtain ⟨rfl, h⟩ := h
  have hl : bytes.length = (bytes.takeWhile (· ≠ newline)).length
      + (bytes.dropWhile (· ≠ newline)).length := by
    rw [← List.length_append, List.takeWhile_append_dropWhile]
  cases hd : bytes.dropWhile (· ≠ newline) with
  | nil =>
    rw [hd] at h
    simp at h
  | cons b rest' =>
    rw [hd] at h hl
    simp only [List.tail?_cons, Option.some.injEq] at h
    subst h
    rw [hl, List.length_cons]
    omega

/-- A line without the carriage return at its end. -/
def dropReturn (line : List UInt8) : List UInt8 :=
  if line.getLast? = some 0x0d then line.dropLast else line

/-- What a line says, if it says something. -/
def lineOf? (start : Nat) (line : List UInt8) : Option Line :=
  let line := dropReturn line
  let content := line.dropWhile isBlank
  if isSilent content then none
  else
    let indent := (line.takeWhile isBlank).length
    some { indent, content := ⟨start + indent, content⟩ }

/-- The lines of a span that say something. -/
def lines (span : Span) : List Line :=
  match _h : splitLine span.bytes with
  | (line, none) => (lineOf? span.start line).toList
  | (line, some rest) =>
    (lineOf? span.start line).toList ++ lines ⟨span.start + line.length + 1, rest⟩
termination_by span.bytes.length
decreasing_by
  have := length_splitLine _h
  omega

/-- The span from the first line on that is neither white space alone nor a comment. -/
def skipHeader (span : Span) : Span :=
  match _h : splitLine span.bytes with
  | (line, none) =>
    if isSilent (line.dropWhile isSpace) then span.drop line.length else span
  | (line, some rest) =>
    if isSilent (line.dropWhile isSpace) then skipHeader ⟨span.start + line.length + 1, rest⟩
    else span
termination_by span.bytes.length
decreasing_by
  have := length_splitLine _h
  omega

end SamplingProfile.Text
