-- Merging profiles into one file: every input is read, in order, and joined to what came
-- before it, and then the whole is written.
import SamplingProfile.CommandLine.Files
import SamplingProfile.Binary.Write
import SamplingProfile.Store.Merge
import SamplingProfile.Text.Write

namespace SamplingProfile.CommandLine

/-- What to merge, and how to write it. -/
structure MergeOptions where
  /-- The files to merge, in order. -/
  input : List String := []
  /-- More files to merge, in order, each with its weight. -/
  weightedInput : List (Count × String) := []
  output : String
  /-- The version of a binary profile. -/
  formatVersion : Nat := 3
  /-- Write a text profile instead of a binary one. -/
  text : Bool := false
  compressNames : Bool := false
  mode : Mode := .sum
deriving DecidableEq, Repr

/-- All files to merge, each with its weight. Those that were given without one have the weight 1
and come first. -/
def MergeOptions.inputs (o : MergeOptions) : List (Count × String) :=
  o.input.map (fun path => (1, path)) ++ o.weightedInput

variable {m : Type → Type} [Monad m]

/-- Joins the profiles of all inputs, in order, to a store. -/
def mergeInputs (files : FileAccess m) (mode : Mode) :
    List (Count × String) → Store → ExceptT CommandError m Store
  | [], s => return s
  | (weight, path) :: rest, s => do
    let p ← readProfile files path
    mergeInputs files mode rest (s.mergeWeighted mode weight p.store)

/-- Writes a store in the form that the options ask for. -/
def MergeOptions.write (o : MergeOptions) (s : Store)
    (deflate : List UInt8 → List UInt8 := Zlib.deflate) : Except CommandError Output :=
  if o.text then .ok (Text.write s)
  else
    match Binary.Version.ofNumber? o.formatVersion with
    | some version =>
      .ok (Binary.Writer.write { version, compressNames := o.compressNames } s deflate)
    | none => .error (.unsupportedVersion o.formatVersion)

/-- Merges profiles into a file. -/
def MergeOptions.run (files : FileAccess m) (o : MergeOptions)
    (deflate : List UInt8 → List UInt8 := Zlib.deflate) : ExceptT CommandError m Unit := do
  if o.inputs = [] then throw .noInputs
  let s ← mergeInputs files o.mode o.inputs ∅
  let output ← ExceptT.mk (pure (o.write s deflate))
  match ← files.write o.output output with
  | .ok () => return ()
  | .error e => throw (.unwritable e)

end SamplingProfile.CommandLine
