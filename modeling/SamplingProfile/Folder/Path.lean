-- Paths: names with slashes between them, which are followed one after another from the
-- root or from the folder where one works. A dot stays in a folder, and two dots go to the
-- one above it.

namespace SamplingProfile

/-- Why a file cannot be used. -/
inductive FileError
  | notFound
  | notADirectory
  | isADirectory
  /-- The path ends in dots or at the root, where no file can be moved. -/
  | resourceBusy
  /-- A path or a name in it is too long. -/
  | invalidFilename
  /-- The path has a null character. -/
  | invalidInput
  | other (kind : String)
deriving DecidableEq, Repr

/-- The kind of the error, in one word. -/
def FileError.kind : FileError → String
  | .notFound => "NotFound"
  | .notADirectory => "NotADirectory"
  | .isADirectory => "IsADirectory"
  | .resourceBusy => "ResourceBusy"
  | .invalidFilename => "InvalidFilename"
  | .invalidInput => "InvalidInput"
  | .other kind => kind

/-- A path that can be followed. -/
structure Path where
  /-- Whether the path starts at the root, and not at the folder where one works. -/
  absolute : Bool
  /-- The names to follow, dots among them. -/
  names : List String
  /-- Whether a slash stands behind the last name. Only a folder can be meant then. -/
  slashed : Bool
deriving DecidableEq, Repr

namespace Path

/-- The most bytes of a path. -/
def maxLength : Nat := 4095

/-- The most bytes of a name. -/
def maxNameLength : Nat := 255

/-- Whether a path starts at the root. -/
def isAbsolute (text : String) : Bool := text.toList.head? == some '/'

/-- Whether a slash stands at the end of a path. -/
def isSlashed (text : String) : Bool := text.toList.getLast? == some '/'

/-- The parts of a text, which has slashes between them. -/
def parts (text : String) : List String := (text.toList.splitOn '/').map String.ofList

/-- The path that a text means. Slashes next to each other count as one. -/
def ofText (text : String) : Except FileError Path :=
  if '\x00' ∈ text.toList then .error .invalidInput
  else if text = "" then .error .notFound
  else if text.utf8ByteSize > maxLength then .error .invalidFilename
  else
    .ok {
      absolute := isAbsolute text
      names := (parts text).filter (· ≠ "")
      slashed := isSlashed text }

/-- The path from a folder, whose own path comes first. An absolute path stays as it is. -/
def join (folder path : String) : String :=
  if isAbsolute path then path
  else if isSlashed folder then folder ++ path
  else folder ++ "/" ++ path

/-- Whether a part of a path is no name, or a dot. -/
def isIdle (part : String) : Bool := part == "" || part == "."

/-- The path in front of the last name of a path. Slashes and dots at its end and at the end
of what is left are dropped, and a path in front of which there is nothing has a dot. -/
def parent (path : String) : String :=
  match (parts path).reverse.dropWhile isIdle with
  | [] => "."
  | _ :: before =>
    match before.dropWhile isIdle with
    | [] => if isAbsolute path then "/" else "."
    | before => "/".intercalate before.reverse

end Path

end SamplingProfile
