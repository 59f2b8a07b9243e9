-- Writing text profiles: each function on a line of its own, and below it, indented by one
-- space more for every level, its locations and then its callees. There is no place in a
-- text for source files and summaries.
import SamplingProfile.Text.Decimal
import SamplingProfile.Text.Line
import SamplingProfile.Store.Depth
import SamplingProfile.Writing.Output

namespace SamplingProfile.Text

/-- A location: its line, and its discriminator behind a dot if it is not 0. -/
def locationText (l : Location) : List UInt8 :=
  if l.discriminator = 0 then Decimal.encode l.line.toNat
  else Decimal.encode l.line.toNat ++ 0x2e :: Decimal.encode l.discriminator.toNat

/-- A name and a count behind a colon. -/
def nameCountText (name : String) (count : Count) : List UInt8 :=
  encodeText name ++ 0x3a :: Decimal.encode count.toNat

/-- The line of a location, without its end. -/
def sampleText (sample : Location × Tally) : List UInt8 :=
  locationText sample.1 ++ [0x3a, 0x20] ++ Decimal.encode sample.2.count.toNat
    ++ sample.2.targets.entries.flatMap fun t => 0x20 :: nameCountText t.1 t.2

/-- The line of a callee, without its end. -/
def callsiteText (site : Callsite) (total : Count) : List UInt8 :=
  locationText site.location ++ [0x3a, 0x20] ++ nameCountText site.callee total

/-- A line with its indent and its end. -/
def lineText (indent : Nat) (content : List UInt8) : List UInt8 :=
  List.replicate indent 0x20 ++ content ++ [newline]

/-- The lines of the locations of a node. -/
def bodyText (indent : Nat) (b : Body) : List UInt8 :=
  b.samples.entries.flatMap fun sample => lineText indent (sampleText sample)

/-- The lines of callees, each followed by the lines of its own body. -/
def forestText (indent : Nat) : Forest → List UInt8
  | .nil => []
  | .cons site body inner rest =>
    lineText indent (callsiteText site (inner.totalWith body))
      ++ bodyText (indent + 1) body ++ forestText (indent + 1) inner ++ forestText indent rest

/-- The lines of a function. -/
def functionText (f : FunctionProfile) : List UInt8 :=
  lineText 0 (encodeText f.name ++ 0x3a :: Decimal.encode f.totalCount.toNat
      ++ 0x3a :: Decimal.encode f.entryCount.toNat)
    ++ bodyText 1 f.toBody ++ forestText 1 f.callees.forest

/-- Writes a store. -/
def write (s : Store) : Output :=
  match s.tooDeep? with
  | some f => .fail (.tooDeep f.name f.inlineDepth)
  | none => ⟨s.toList.flatMap functionText, none⟩

end SamplingProfile.Text
