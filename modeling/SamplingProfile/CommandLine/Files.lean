-- What the commands do with files: they read them, and they write a profile whole or not at
-- all.
import SamplingProfile.Folder.Profiles

namespace SamplingProfile.CommandLine

/-- Why a command failed. -/
inductive CommandError
  | noInputs
  | unreadable (path : String) (e : ProfileError)
  | summary (e : SummaryError)
  | unsupportedVersion (version : Nat)
  | unwritable (e : ProfileError)
deriving DecidableEq, Repr

/-- What is said of the error. -/
def CommandError.message : CommandError → String
  | .noInputs => "No input files selected. See merge --help"
  | .unreadable path e => s!"Failed to read {path}: {e.message}"
  | .summary e => e.message
  | .unsupportedVersion version => s!"Unsupported format version {version}"
  | .unwritable e => e.message

/-- Files as the commands use them. -/
structure FileAccess (m : Type → Type) where
  read : String → m (Except FileError (List UInt8))
  write : String → Output → m (Except ProfileError Unit)

/-- The files of a folder that is kept as a state. -/
def folderAccess : FileAccess (StateM Folder) where
  read path := do return (← get).read path
  write path output := do
    let (d, result) := (← get).writeProfile path output
    set d
    return result

/-- Reads the profile in a file. -/
def readProfile {m : Type → Type} [Monad m] (files : FileAccess m) (path : String) :
    ExceptT CommandError m Profile := do
  match ← files.read path with
  | .error e => throw (.unreadable path (.file e))
  | .ok bytes =>
    match Profile.ofBytes bytes with
    | .error e => throw (.unreadable path (.read e))
    | .ok p => return p

end SamplingProfile.CommandLine
