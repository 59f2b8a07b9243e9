-- The commands: `show` tells about a profile, and `merge` joins profiles into one file.
import SamplingProfile.CommandLine.Arguments
import SamplingProfile.CommandLine.Merge
import SamplingProfile.CommandLine.Show
import SamplingProfile.CommandLine.Weighted

namespace SamplingProfile.CommandLine

/-- A command with its options. -/
inductive Command
  | showProfile (options : ShowOptions)
  | mergeProfiles (options : MergeOptions)
deriving DecidableEq, Repr

/-! ## Reading the command line -/

/-- Whether a text is a number of 64 bits. -/
def isNumber (s : String) : Bool := (number s).toBool

/-- The options of `show`. -/
def showOpts : List Opt := [
  { long := "input", short? := some 'i', arity := .single, required := true },
  { long := "counts", arity := .flag },
  { long := "all-functions", arity := .flag },
  { long := "function", arity := .single },
  { long := "detailed-summary", arity := .flag },
  { long := "topn", arity := .single, accepts := isNumber }]

/-- The options of `merge`. -/
def mergeOpts : List Opt := [
  { long := "input", short? := some 'i', arity := .many },
  { long := "weighted-input", arity := .many, accepts := fun s => (weighted s).toBool },
  { long := "output", short? := some 'o', arity := .single, required := true },
  { long := "format-version", arity := .single, hasDefault := true, accepts := isNumber },
  { long := "text", arity := .flag },
  { long := "compress-names", arity := .flag },
  { long := "max", arity := .flag }]

/-- The number that an option was given, if it was. -/
def numberOf? (uses : List Use) (long : String) : Option Nat :=
  (valuesOf uses long).head?.bind fun s => (number s).toOption

/-- Whether a flag was given. -/
def isGiven (uses : List Use) (long : String) : Bool := timesUsed uses long ≠ 0

/-- The options of `show` as they were used. -/
def ShowOptions.ofUses (uses : List Use) : ShowOptions where
  input := (valuesOf uses "input").headD ""
  counts := isGiven uses "counts"
  allFunctions := isGiven uses "all-functions"
  function? := (valuesOf uses "function").head?
  detailed := isGiven uses "detailed-summary"
  top? := numberOf? uses "topn"

/-- The options of `merge` as they were used. -/
def MergeOptions.ofUses (uses : List Use) : MergeOptions where
  input := valuesOf uses "input"
  weightedInput := (valuesOf uses "weighted-input").filterMap fun s => (weighted s).toOption
  output := (valuesOf uses "output").headD ""
  formatVersion := (numberOf? uses "format-version").getD 3
  text := isGiven uses "text"
  compressNames := isGiven uses "compress-names"
  mode := if isGiven uses "max" then .max else .sum

/-- The names of the commands, the one that explains the others included. -/
def commandNames : List String := ["show", "merge", "help"]

/-- What is wrong with a word where the name of a command should be. -/
def strayWord (word : String) : UsageError :=
  if commandNames.any (isAlike word) then .invalidSubcommand else .unknownArgument

/-- The command of a command line. -/
def Command.ofWords : List String → Except UsageError Command
  | [] | ["--"] => .error .missingSubcommand
  | "show" :: rest => do return .showProfile (.ofUses (← usesOf showOpts rest))
  | "merge" :: rest => do return .mergeProfiles (.ofUses (← usesOf mergeOpts rest))
  | "help" :: rest =>
    match rest with
    | [] => .error .helpShown
    | [name] =>
      if name ∈ commandNames then .error .helpShown else .error .unrecognizedSubcommand
    | _ => .error .unrecognizedSubcommand
  | "--" :: word :: _ => .error (strayWord word)
  | word :: _ =>
    match word.toList with
    | '-' :: '-' :: name => .error <| match readLong [] name {} with
      | .error e => e
      | .ok _ => .unknownArgument
    | '-' :: c :: name => .error <| match readShort [] (c :: name) {} with
      | .error e => e
      | .ok _ => .unknownArgument
    | _ => .error (strayWord word)

/-! ## Running a command -/

variable {m : Type → Type} [Monad m]

/-- Shows a profile; the text is what is printed. -/
def ShowOptions.run (files : FileAccess m) (o : ShowOptions) : ExceptT CommandError m String := do
  let p ← readProfile files o.input
  match CommandLine.showProfile o p with
  | .ok text => return text
  | .error e => throw (.summary e)

/-- Runs a command; the text is what is printed. -/
def Command.run (files : FileAccess m) : Command → ExceptT CommandError m String
  | .showProfile o => o.run files
  | .mergeProfiles o => do
    o.run files
    return ""

/-- Why nothing came of a command line: it is no command, or its command failed. -/
inductive Failure
  | usage (e : UsageError)
  | command (e : CommandError)
deriving DecidableEq, Repr

/-- What is said of the failure. -/
def Failure.message : Failure → String
  | .usage e => e.kind
  | .command e => e.message

/-- Runs the command of a command line; the text is what is printed. -/
def execute (files : FileAccess m) (words : List String) : ExceptT Failure m String :=
  match Command.ofWords words with
  | .error e => throw (.usage e)
  | .ok command => (command.run files).adapt .command

end SamplingProfile.CommandLine
