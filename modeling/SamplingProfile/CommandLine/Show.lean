-- Showing a profile: the functions that were asked for, then the format and the summary,
-- and at the end the functions with the largest counts.
import SamplingProfile.CommandLine.Hottest
import SamplingProfile.Profile
import SamplingProfile.Summary.Describe

namespace SamplingProfile.CommandLine

/-- What to show. -/
structure ShowOptions where
  /-- The file of the profile. -/
  input : String
  /-- Show the counts of the functions that are shown. -/
  counts : Bool := false
  /-- Show every function. -/
  allFunctions : Bool := false
  /-- Show the functions with this text in their names. -/
  function? : Option String := none
  /-- Show how many counts cover which share of the samples. -/
  detailed : Bool := false
  /-- Show so many of the functions with the largest counts. -/
  top? : Option Nat := none
deriving DecidableEq, Repr

/-- Whether a text stands somewhere in another. -/
def standsIn (pattern : List Char) : List Char → Bool
  | [] => pattern = []
  | c :: rest => pattern.isPrefixOf (c :: rest) || standsIn pattern rest

/-- Whether a function is shown. -/
def ShowOptions.selects (o : ShowOptions) (f : FunctionProfile) : Bool :=
  o.allFunctions || o.function?.any fun pattern => standsIn pattern.toList f.name.toList

/-! ## Functions -/

/-- A line and a discriminator. -/
def placeText (l : Location) : String := s!"{l.line}.{l.discriminator}"

/-- The indent of a level. -/
def showIndent (level : Nat) : String := String.ofList (List.replicate (2 * (level + 2)) ' ')

/-- The lines of the locations of a node. -/
def bodyLines (level : Nat) (b : Body) : List String :=
  b.samples.entries.map fun (location, tally) =>
    let targets := tally.targets.entries.map fun (name, count) => s!" {name}:{count}"
    s!"{showIndent level}{placeText location}: {tally.count}{String.join targets}"

/-- The lines of callees, each followed by the lines of its own body. -/
def forestLines (level : Nat) : Forest → List String
  | .nil => []
  | .cons site body inner rest =>
    let total := inner.totalWith body
    s!"{showIndent level}{placeText site.location}: inlined {body.name} (total = {total})"
      :: bodyLines (level + 1) body ++ forestLines (level + 1) inner ++ forestLines level rest

/-- The lines of a function. -/
def functionLines (counts : Bool) (f : FunctionProfile) : List String :=
  [s!"  {f.name}:",
   s!"    Head count: {f.entryCount}",
   s!"    Total samples: {f.totalCount}",
   s!"    Inlined callees: {f.nodeCount - 1}"]
  ++ if counts then bodyLines 0 f.toBody ++ forestLines 0 f.callees.forest else []

/-! ## Profiles -/

/-- The line of the format. -/
def formatLine : Format → String
  | .binary v => s!"Format: binary version {v.number}"
  | .text => "Format: text"

/-- The lines of the summary. -/
def summaryLines (detailed : Bool) (s : Summary) : List String :=
  if detailed then [s.describe]
  else
    [s!"Total functions: {s.numFunctions}",
     s!"Maximum function count: {s.maxEntryCount}",
     s!"Maximum sample count: {s.maxCount}",
     s!"Total count: {s.totalCount}"]

/-- The line in front of the functions with the largest counts. -/
def topHeading (n : Nat) : String := s!"Top {n} functions with the largest sample counts: "

/-- All lines that are shown of a profile with a summary. -/
def showLines (o : ShowOptions) (p : Profile) (s : Summary)
    (heap : Heap HotFunction := .listed) : List String :=
  let shown := p.store.toList.filter o.selects
  (if shown = [] then [] else "Functions:" :: shown.flatMap (functionLines o.counts))
    ++ [formatLine p.format]
    ++ (if o.allFunctions || o.function?.isSome then [s!"Functions shown: {shown.length}"] else [])
    ++ summaryLines o.detailed s
    ++ match o.top? with
      | none => []
      | some n => topHeading n :: (hottest heap n p.store).map HotFunction.line

/-- What is shown of a profile; nothing if it has no summary. -/
def showProfile (o : ShowOptions) (p : Profile) (heap : Heap HotFunction := .listed) :
    Except SummaryError String := do
  let s ← p.summary
  return String.join ((showLines o p s heap).map (· ++ "\n"))

end SamplingProfile.CommandLine
