-- Reading binary profiles. Counts of what follows come from the bytes and are not trusted:
-- reading ends with the bytes, whatever they announce.
import SamplingProfile.Binary.Layout
import SamplingProfile.Store.Depth
import SamplingProfile.Summary.Basic

namespace SamplingProfile.Binary

/-- A name table as it was read. -/
abbrev NameArray := Array String

namespace Layout

/-! ## Summary and names -/

/-- The coverage of one cutoff. -/
def readCoverage (l : Layout) : Reader Coverage := do
  let cutoff ← l.readWord
  let minCount ← l.readCount
  let numCounts ← l.readSmall
  return { cutoff, minCount, numCounts }

/-- The summary behind its flag. -/
def readSummaryFields (l : Layout) : Reader Summary := do
  let totalCount ← l.readCount
  let maxCount ← l.readCount
  let maxEntryCount ← l.readCount
  let numCounts ← l.readSmall
  let numFunctions ← l.readSmall
  let entries ← l.readSmall
  Reader.ensure entries
  let coverage ← Reader.repeated l.readCoverage entries
  return { totalCount, maxCount, maxEntryCount, numCounts, numFunctions, coverage }

/-- The summary, if the profile has one. A flag that is neither 0 nor 1 is met behind it. -/
def readSummary (l : Layout) : Reader (Option Summary) := do
  match ← Reader.littleEndian 1 with
  | 0 => return none
  | 1 => return some (← l.readSummaryFields)
  | _ => Reader.fail .invalidSummaryFlag

/-- A name behind its length. -/
def readText (l : Layout) : Reader String := do Reader.text (← l.readSmall)

/-- The name table. -/
def readTable (l : Layout) : Reader NameArray := do
  match l.names with
  | .inlined => return #[]
  | .table =>
    let count ← l.readSmall
    Reader.ensure count
    return (← Reader.repeated l.readText count).toArray
  | .compressibleTable => return (← NameList.read).toArray

/-- A name where it is used. -/
def readName (l : Layout) (table : NameArray) : Reader String := do
  match l.names with
  | .inlined => l.readText
  | .table | .compressibleTable =>
    let span ← get
    let index ← l.readSmall
    match table[index]? with
    | some name => return name
    | none => Reader.failAt span .nameIndexOutOfRange

/-! ## Functions -/

/-- A function that is called indirectly, and how often. -/
def readTarget (l : Layout) (table : NameArray) : Reader (String × Count) := do
  let name ← l.readName table
  let count ← l.readCount
  return (name, count)

/-- A location with its tally. -/
def readSample (l : Layout) (table : NameArray) : Reader (Location × Tally) := do
  let packed ← l.readWord
  let count ← l.readCount
  let instructions ← l.readCount
  let targets ← l.readSmall
  let entries ← Reader.distinct .duplicateTarget (l.readTarget table) targets []
  return (⟨packed⟩, { count, instructions, targets := .ofList entries })

/-- What a function holds itself. -/
def readBody (l : Layout) (table : NameArray) : Reader Body := do
  let name ← l.readName table
  let directory ← l.readName table
  let file ← l.readName table
  let startLine ← l.readWord
  let entryCount ← l.readCount
  let locations ← l.readSmall
  let samples ← Reader.distinct .duplicateLocation (l.readSample table) locations []
  return { name, directory, file, startLine, entryCount, samples := .ofList samples }

/-- A function with its callees, for which there are `levels` levels, its own included. -/
def readFunction (l : Layout) (table : NameArray) : (levels : Nat) → Reader FunctionProfile
  | 0 => Reader.fail .inlinedTooDeep
  | levels + 1 => do
    let body ← l.readBody table
    let callsites ← l.readSmall
    let callees ← Reader.distinct .duplicateCallsite (do
      let packed ← l.readWord
      let callee ← l.readFunction table levels
      return ((⟨⟨packed⟩, callee.name⟩ : Callsite), callee)) callsites []
    return { body with callees := .ofList callees }

/-- A function of the top level under its name. -/
def readEntry (l : Layout) (table : NameArray) : Reader (String × FunctionProfile) := do
  let f ← Reader.within .function (l.readFunction table (maxInlineDepth + 1))
  return (f.name, f)

/-! ## Profiles -/

/-- All that follows the version number. -/
def readContent (l : Layout) : Reader (Store × Option Summary) := do
  let summary ← Reader.within .summary l.readSummary
  let table ← Reader.within .nameTable l.readTable
  let count ← l.readSmall
  let functions ← Reader.distinct .duplicateFunction (l.readEntry table) count []
  if (← get).bytes ≠ [] then Reader.fail .trailingData
  return (.ofList (functions.map Prod.snd), summary)

end Layout

/-- The magic bytes and the version number. -/
def readHeader : Reader Nat := do
  if hasMagic (← get).bytes then
    discard (Reader.take 8)
    Reader.littleEndian 8
  else Reader.fail .badMagic

end SamplingProfile.Binary
