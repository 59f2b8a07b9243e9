-- The words of a command line. Options have a long name behind two dashes or a short one
-- behind one, and take nothing, one value, or one value and more. There are no other
-- arguments than options and their values.
import SamplingProfile.CommandLine.Similarity

namespace SamplingProfile.CommandLine

/-- What is wrong with a command line, or asked of it instead of work. -/
inductive UsageError
  | missingSubcommand
  | invalidSubcommand
  | unrecognizedSubcommand
  | unknownArgument
  | emptyValue
  | missingRequired
  | invalidValue
  | repeated
  | helpShown
  | versionShown
deriving DecidableEq, Repr

/-- The name of the error. -/
def UsageError.kind : UsageError → String
  | .missingSubcommand => "MissingArgumentOrSubcommand"
  | .invalidSubcommand => "InvalidSubcommand"
  | .unrecognizedSubcommand => "UnrecognizedSubcommand"
  | .unknownArgument => "UnknownArgument"
  | .emptyValue => "EmptyValue"
  | .missingRequired => "MissingRequiredArgument"
  | .invalidValue => "ValueValidation"
  | .repeated => "UnexpectedMultipleUsage"
  | .helpShown => "HelpDisplayed"
  | .versionShown => "VersionDisplayed"

/-- How many values an option takes. -/
inductive Arity
  /-- None. -/
  | flag
  /-- One. -/
  | single
  /-- One or more, up to the next option. -/
  | many
deriving DecidableEq, Repr

/-- An option of a command. -/
structure Opt where
  long : String
  short? : Option Char := none
  arity : Arity
  required : Bool := false
  /-- Whether there is a value to fall back on when none is given. -/
  hasDefault : Bool := false
  /-- Whether a value is one that the option can take. -/
  accepts : String → Bool := fun _ => true

/-- An option as it was given, once, with its values. -/
structure Use where
  long : String
  values : List String
deriving DecidableEq, Repr

/-- The words read so far: the uses of options, the last one first, and whether that one
still waits for values. -/
structure Reading where
  uses : List Use := []
  waiting : Option Arity := none

namespace Reading

/-- A use of an option without a value yet. -/
def start (r : Reading) (o : Opt) : Reading :=
  ⟨⟨o.long, []⟩ :: r.uses, if o.arity = .flag then none else some o.arity⟩

/-- A use of an option with a value. Only a value without an equals sign in front lets more
values follow. -/
def startWith (r : Reading) (o : Opt) (value : String) (more : Bool) : Reading :=
  ⟨⟨o.long, [value]⟩ :: r.uses, if more && o.arity = .many then some .many else none⟩

/-- One more value of the last use. -/
def addValue (r : Reading) (value : String) : Reading :=
  match r.uses, r.waiting with
  | use :: uses, some arity =>
    ⟨{ use with values := use.values ++ [value] } :: uses,
      if arity = .many then some .many else none⟩
  | _, _ => r

end Reading

/-- A text without the given character at its front. -/
def trimFront (c : Char) (s : List Char) : List Char := s.dropWhile (· = c)

/-- The name before the first equals sign, and what stands behind the sign if there is one. -/
def splitEquals (s : List Char) : String × Option (List Char) :=
  (String.ofList (s.takeWhile (· ≠ '=')), (s.dropWhile (· ≠ '=')).tail?)

/-- A word with a long name. All dashes at its front and all equals signs at the front of
its value are dropped. -/
def readLong (opts : List Opt) (word : List Char) (r : Reading) : Except UsageError Reading :=
  let (name, value?) := splitEquals (trimFront '-' word)
  match opts.find? fun o => o.long = name with
  | some o =>
    match o.arity, value? with
    | .flag, _ | _, none => .ok (r.start o)
    | _, some value => .ok (r.startWith o (String.ofList (trimFront '=' value)) false)
  | none =>
    if name = "help" then .error .helpShown
    else if name = "version" then .error .versionShown
    else .error .unknownArgument

/-- A word with a short name. What follows the name is its value. -/
def readShort (opts : List Opt) (word : List Char) (r : Reading) : Except UsageError Reading :=
  match trimFront '-' word with
  | [] => .ok r
  | c :: rest =>
    match opts.find? fun o => o.short? = some c with
    | some o =>
      match rest with
      | [] => .ok (r.start o)
      | '=' :: value => .ok (r.startWith o (String.ofList (trimFront '=' value)) false)
      | value => .ok (r.startWith o (String.ofList value) true)
    | none =>
      if c = 'h' then .error .helpShown
      else if c = 'V' then .error .versionShown
      else .error .unknownArgument

/-- Reads the words of a command. Two dashes alone end the options, and then nothing may
follow. -/
def readWords (opts : List Opt) (r : Reading) : List String → Except UsageError Reading
  | [] => .ok r
  | word :: rest =>
    match word.toList with
    | ['-', '-'] => if rest = [] then .ok r else .error .unknownArgument
    | '-' :: '-' :: name => do readWords opts (← readLong opts name r) rest
    | '-' :: c :: name => do readWords opts (← readShort opts (c :: name) r) rest
    | _ =>
      if r.waiting.isSome then readWords opts (r.addValue word) rest
      else .error .unknownArgument

/-- The values of an option over all its uses. -/
def valuesOf (uses : List Use) (long : String) : List String :=
  (uses.filter fun u => u.long = long).flatMap Use.values

/-- How often an option was used. -/
def timesUsed (uses : List Use) (long : String) : Nat :=
  uses.countP fun u => u.long = long

/-- Whether an option was used and never given the value that it needs. -/
def lacksValue (uses : List Use) (o : Opt) : Bool :=
  0 < timesUsed uses o.long && o.arity ≠ .flag && !o.hasDefault && valuesOf uses o.long = []

/-- What is wrong with the uses of one option. -/
def checkOpt (uses : List Use) (o : Opt) : Except UsageError Unit := do
  if lacksValue uses o then throw .emptyValue
  unless (valuesOf uses o.long).all o.accepts do throw .invalidValue
  if o.arity ≠ .many ∧ 1 < timesUsed uses o.long then throw .repeated

/-- The uses of options in the words of a command. A missing option is told before a missing
value of the last use, and that before all else. -/
def usesOf (opts : List Opt) (words : List String) : Except UsageError (List Use) := do
  let r ← readWords opts {} words
  let uses := r.uses.reverse
  unless opts.all (fun o => !o.required || 0 < timesUsed uses o.long) do throw .missingRequired
  if r.waiting.isSome then
    let last := (r.uses.head?.map Use.long).getD ""
    if opts.any fun o => o.long = last && lacksValue uses o then throw .emptyValue
  opts.forM (checkOpt uses)
  return uses

end SamplingProfile.CommandLine
