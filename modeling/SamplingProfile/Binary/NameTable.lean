-- The table of the names of a profile: each name once, in order. A name is written as its
-- place in the table.
import SamplingProfile.Binary.Layout
import SamplingProfile.Store.Basic

namespace SamplingProfile

/-- The names that a node holds itself. -/
def Body.names (b : Body) : List String :=
  b.name :: b.directory :: b.file :: b.samples.values.flatMap fun t => t.targets.keys

/-- The names of all nodes. -/
def Forest.names : Forest → List String
  | nil => []
  | cons _ body inner rest => body.names ++ (inner.names ++ rest.names)

/-- The names of a function and its callees. -/
def FunctionProfile.names (f : FunctionProfile) : List String :=
  f.toBody.names ++ f.callees.forest.names

namespace Binary

/-- Names in strictly increasing order. -/
structure NameTable where
  entries : SortedMap String Unit

namespace NameTable

/-- The table of some names, each of which may come more than once. -/
def ofNames (names : List String) : NameTable := ⟨.ofList (names.map fun n => (n, ()))⟩

/-- The table that a layout needs for a store; empty where names are not kept in one. -/
def ofStore (l : Layout) (s : Store) : NameTable :=
  match l.names with
  | .inlined => ⟨∅⟩
  | .table | .compressibleTable => ofNames (s.toList.flatMap FunctionProfile.names)

/-- The names in order. -/
def names (t : NameTable) : List String := t.entries.keys

/-- The place of a name. -/
def index? (t : NameTable) (name : String) : Option Nat := t.names.findIdx? (· == name)

end NameTable

namespace Layout

/-- Writes a name behind its length. -/
def writeText (l : Layout) (name : String) : Output :=
  l.writeSmall .nameLength (encodeText name).length ++ ⟨encodeText name, none⟩

/-- Writes the name table. -/
def writeTable (l : Layout) (table : NameTable) (compress : Bool)
    (deflate : List UInt8 → List UInt8 := Zlib.deflate) : Output :=
  match l.names with
  | .inlined => .empty
  | .table =>
    l.writeSmall .nameCount table.names.length ++ .concat (table.names.map l.writeText)
  | .compressibleTable => ⟨NameList.write table.names compress deflate, none⟩

/-- Writes a name where it is used. -/
def writeName (l : Layout) (table : NameTable) (name : String) : Output :=
  match l.names with
  | .inlined => l.writeText name
  | .table | .compressibleTable =>
    match table.index? name with
    | some index => l.writeSmall .nameIndex index
    | none => .fail (.unlistedName name)

end Layout

end Binary

end SamplingProfile
