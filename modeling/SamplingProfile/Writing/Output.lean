-- What a writer produces: bytes, and the error that stopped it, if one did. Parts are put
-- together from front to back, and nothing is written behind an error.
import SamplingProfile.Summary.Basic

namespace SamplingProfile

/-- A number that the narrow binary form keeps in 32 bits. -/
inductive Field
  | numberOfCounts
  | numberOfFunctions
  | numberOfCutoffs
  | cutoff
  | cutoffCount
  | nameCount
  | nameLength
  | nameIndex
  | functionCount
  | startLine
  | locationCount
  | offset
  | targetCount
  | callsiteCount
deriving DecidableEq, Repr

/-- The name of a field. -/
def Field.name : Field → String
  | .numberOfCounts => "number of counts"
  | .numberOfFunctions => "number of functions"
  | .numberOfCutoffs => "number of cutoffs"
  | .cutoff => "cutoff"
  | .cutoffCount => "cutoff count"
  | .nameCount => "name count"
  | .nameLength => "name length"
  | .nameIndex => "name index"
  | .functionCount => "function count"
  | .startLine => "start line"
  | .locationCount => "location count"
  | .offset => "offset"
  | .targetCount => "target count"
  | .callsiteCount => "callsite count"

/-- Why a profile was not written. -/
inductive WriteError
  /-- A field does not fit the binary form of a version. -/
  | tooLarge (version : Nat) (field : Field)
  /-- A function has a longer chain of inlined callees than readers accept. -/
  | tooDeep (name : String) (depth : Nat)
  /-- There is no summary to write. -/
  | summary (e : SummaryError)
  /-- A name was left out of the name table. -/
  | unlistedName (name : String)
deriving DecidableEq, Repr

/-- What is said of the error. -/
def WriteError.message : WriteError → String
  | .tooLarge version field => s!"{field.name} doesn't fit in a version {version} profile"
  | .tooDeep name depth =>
    s!"{name} has inlined callees {depth} deep which is more than the readers accept"
  | .summary e => e.message
  | .unlistedName name => s!"{name} missing from name table"

/-- The bytes of a writer, and the error behind them that stopped it. -/
structure Output where
  bytes : List UInt8
  error? : Option WriteError := none
deriving DecidableEq, Repr

namespace Output

/-- Nothing written. -/
def empty : Output := ⟨[], none⟩

/-- An error and no byte. -/
def fail (e : WriteError) : Output := ⟨[], some e⟩

/-- One output behind another; nothing is written behind an error. -/
def append (a b : Output) : Output :=
  match a.error? with
  | some _ => a
  | none => ⟨a.bytes ++ b.bytes, b.error?⟩

instance : Append Output := ⟨append⟩
instance : Inhabited Output := ⟨empty⟩

/-- A list of outputs, one behind the other. -/
def concat (outputs : List Output) : Output := outputs.foldr (· ++ ·) empty

/-- The bytes, or the error that stopped them. -/
def toExcept (o : Output) : Except WriteError (List UInt8) :=
  match o.error? with
  | some e => .error e
  | none => .ok o.bytes

@[simp] theorem empty_append (b : Output) : empty ++ b = b := by
  show append empty b = b
  simp [append, empty]

@[simp] theorem append_empty (a : Output) : a ++ empty = a := by
  show append a empty = a
  rcases a with ⟨bytes, _ | e⟩ <;> simp [append, empty]

theorem append_assoc (a b c : Output) : a ++ b ++ c = a ++ (b ++ c) := by
  show append (append a b) c = append a (append b c)
  rcases a with ⟨x, _ | e⟩
  · rcases b with ⟨y, _ | e⟩ <;> simp [append]
  · simp [append]

@[simp] theorem concat_nil : concat [] = empty := rfl

@[simp] theorem concat_cons (o : Output) (rest : List Output) :
    concat (o :: rest) = o ++ concat rest := rfl

/-- Bytes without an error. -/
theorem append_ofBytes (xs ys : List UInt8) :
    (⟨xs, none⟩ : Output) ++ (⟨ys, none⟩ : Output) = ⟨xs ++ ys, none⟩ := rfl

end Output

end SamplingProfile
