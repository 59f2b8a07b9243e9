-- The program: its arguments are a command line, which is executed on the files of the
-- system.
import SamplingProfile.CommandLine.Command

namespace SamplingProfile

open CommandLine

/-- The number of an error, which comes with or without a minus sign. -/
def errorNumber (code : UInt32) : UInt32 := min code (0 - code)

/-- The kind of an error of the file system. -/
def FileError.ofIO : IO.Error → FileError
  | .noFileOrDirectory .. => .notFound
  | .permissionDenied .. => .other "PermissionDenied"
  | .inappropriateType _ code _ => if errorNumber code = 20 then .notADirectory else .isADirectory
  | .resourceBusy .. => .resourceBusy
  | .invalidArgument _ code _ => if errorNumber code = 36 then .invalidFilename else .invalidInput
  | _ => .other "Other"

/-- Reads a whole file. -/
def readFile (path : String) : IO (Except FileError (List UInt8)) := do
  try
    return .ok (← IO.FS.readBinFile path).data.toList
  catch e => return .error (.ofIO e)

/-- Writes a file in the folder in front of the last name of its path, where no file of its
name may be, and moves it to the end of the path when it is whole. -/
def writeFile (path : String) (output : Output) : IO (Except ProfileError Unit) := do
  let number := (← IO.monoNanosNow) % 1000000
  let temporary := Path.join (Path.parent path) (".tmp" ++ toString number)
  try
    let file ← IO.FS.Handle.mk temporary .writeNew
    file.write ⟨output.bytes.toArray⟩
    file.flush
  catch e => return .error (.file (.ofIO e))
  match output.error? with
  | some e =>
    IO.FS.removeFile temporary
    return .error (.write e)
  | none =>
    try
      IO.FS.rename temporary path
      return .ok ()
    catch e =>
      IO.FS.removeFile temporary
      return .error (.file (.ofIO e))

/-- The files of the system. -/
def systemAccess : FileAccess IO := ⟨readFile, writeFile⟩

end SamplingProfile

open SamplingProfile CommandLine in
/-- Executes the arguments as a command line. -/
def main (args : List String) : IO UInt32 := do
  match ← (execute systemAccess args).run with
  | .ok text =>
    IO.print text
    return 0
  | .error e =>
    IO.eprintln s!"error: {e.message}"
    return 1
