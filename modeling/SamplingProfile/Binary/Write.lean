-- Writing binary profiles. What can be refused before the first byte is refused there: too
-- long a chain of callees, and counts without a summary.
import SamplingProfile.Binary.NameTable
import SamplingProfile.Store.Depth
import SamplingProfile.Store.Summary

namespace SamplingProfile.Binary

namespace Layout

/-! ## Summary -/

/-- Writes the coverage of one cutoff. -/
def writeCoverage (l : Layout) (c : Coverage) : Output :=
  l.writeSmall .cutoff c.cutoff.toNat ++ l.writeCount c.minCount
    ++ l.writeSmall .cutoffCount c.numCounts

/-- Writes the summary behind its flag. -/
def writeSummary (l : Layout) : Option Summary → Output
  | none => ⟨[0], none⟩
  | some s =>
    .concat [
      ⟨[1], none⟩,
      l.writeCount s.totalCount,
      l.writeCount s.maxCount,
      l.writeCount s.maxEntryCount,
      l.writeSmall .numberOfCounts s.numCounts,
      l.writeSmall .numberOfFunctions s.numFunctions,
      l.writeSmall .numberOfCutoffs s.coverage.length,
      .concat (s.coverage.map l.writeCoverage)]

/-! ## Functions -/

/-- Writes a function that is called indirectly. -/
def writeTarget (l : Layout) (table : NameTable) (target : String × Count) : Output :=
  l.writeName table target.1 ++ l.writeCount target.2

/-- Writes a location with its tally. -/
def writeSample (l : Layout) (table : NameTable) (sample : Location × Tally) : Output :=
  .concat [
    l.writeSmall .offset sample.1.packed.toNat,
    l.writeCount sample.2.count,
    l.writeCount sample.2.instructions,
    l.writeSmall .targetCount sample.2.targets.size,
    .concat (sample.2.targets.entries.map (l.writeTarget table))]

/-- Writes what a function holds itself. -/
def writeBody (l : Layout) (table : NameTable) (b : Body) : Output :=
  .concat [
    l.writeName table b.name,
    l.writeName table b.directory,
    l.writeName table b.file,
    l.writeSmall .startLine b.startLine.toNat,
    l.writeCount b.entryCount,
    l.writeSmall .locationCount b.samples.size,
    .concat (b.samples.entries.map (l.writeSample table))]

/-- Writes callees, each behind the location of its call. -/
def writeForest (l : Layout) (table : NameTable) : Forest → Output
  | .nil => .empty
  | .cons site body inner rest =>
    .concat [
      l.writeSmall .offset site.location.packed.toNat,
      l.writeBody table body,
      l.writeSmall .callsiteCount inner.sites.length,
      l.writeForest table inner,
      l.writeForest table rest]

/-- Writes a function with its callees. -/
def writeFunction (l : Layout) (table : NameTable) (f : FunctionProfile) : Output :=
  .concat [
    l.writeBody table f.toBody,
    l.writeSmall .callsiteCount f.callees.forest.sites.length,
    l.writeForest table f.callees.forest]

/-- Writes a profile, its version number included. -/
def writeProfile (l : Layout) (compress : Bool) (s : Store) (summary? : Option Summary)
    (deflate : List UInt8 → List UInt8 := Zlib.deflate) : Output :=
  let table := NameTable.ofStore l s
  .concat [
    ⟨magic, none⟩,
    ⟨LittleEndian.encode 8 l.version.number, none⟩,
    l.writeSummary summary?,
    l.writeTable table compress deflate,
    l.writeSmall .functionCount s.size,
    .concat (s.toList.map (l.writeFunction table))]

end Layout

/-- How a binary profile is written. -/
structure Writer where
  version : Version := .latest
  /-- Whether a name table is compressed, where the version allows it. -/
  compressNames : Bool := false
  /-- Whether the summary is written. -/
  includeSummary : Bool := true
deriving DecidableEq, Repr

/-- Writes a store. -/
def Writer.write (w : Writer) (s : Store) (deflate : List UInt8 → List UInt8 := Zlib.deflate) :
    Output :=
  match s.tooDeep? with
  | some f => .fail (.tooDeep f.name f.inlineDepth)
  | none =>
    if w.includeSummary then
      match s.summary defaultCutoffs with
      | .error e => .fail (.summary e)
      | .ok summary => w.version.layout.writeProfile w.compressNames s (some summary) deflate
    else w.version.layout.writeProfile w.compressNames s none deflate

end SamplingProfile.Binary
