-- A folder in a tree of files. Reading and writing follow a path; a path that leads to no
-- file is an error, and an error changes nothing.
import SamplingProfile.Folder.Path
import SamplingProfile.SortedMap

namespace SamplingProfile

/-- Where a file or a folder stands: the names on the way from the root to it. -/
abbrev Place := List String

/-- A folder where one works, and the files of the tree in which it stands. A folder stands
on every way to this one and to a file. -/
structure Folder where
  home : Place := []
  files : SortedMap Place (List UInt8) := ∅
deriving DecidableEq

namespace Folder

/-! ## Following a path -/

/-- Whether a folder stands at a place. -/
def isFolder (d : Folder) (place : Place) : Bool :=
  (d.home :: d.files.keys.map List.dropLast).any place.isPrefixOf

/-- From a folder to the folder of a name in it. -/
def step (d : Folder) (place : Place) (name : String) : Except FileError Place :=
  if name = "." then .ok place
  else if name = ".." then .ok place.dropLast
  else if name.utf8ByteSize > Path.maxNameLength then .error .invalidFilename
  else if d.isFolder (place ++ [name]) then .ok (place ++ [name])
  else if d.files.contains (place ++ [name]) then .error .notADirectory
  else .error .notFound

/-- From a folder to the folder at the end of some names. -/
def walk (d : Folder) (place : Place) (names : List String) : Except FileError Place :=
  names.foldlM d.step place

/-- The place of the last name of a path, or none when dots or the root are the end of it. -/
def target (d : Folder) (p : Path) : Except FileError (Option Place) :=
  match p.names.getLast? with
  | none => .ok none
  | some name => do
    let folder ← d.walk (if p.absolute then [] else d.home) p.names.dropLast
    if name = "." ∨ name = ".." then return none
    if name.utf8ByteSize > Path.maxNameLength then throw .invalidFilename
    return some (folder ++ [name])

/-- The path that leads from the root to where a path leads from the folder. -/
def absolute (d : Folder) (path : String) : String :=
  Path.join ("/" ++ "/".intercalate d.home) path

/-! ## Files -/

/-- The names of the files in the folder, in order. -/
def names (d : Folder) : List String :=
  d.files.keys.filterMap fun place => if place.dropLast = d.home then place.getLast? else none

/-- The bytes of the file at the end of a path. -/
def read (d : Folder) (path : String) : Except FileError (List UInt8) := do
  let p ← Path.ofText path
  match ← d.target p with
  | none => throw .isADirectory
  | some place =>
    if d.isFolder place then throw .isADirectory
    match d.files.get? place with
    | none => throw .notFound
    | some bytes => if p.slashed then throw .notADirectory else return bytes

/-- The place that a file gets at the end of a path. A file never takes the place of a
folder. -/
def destination (d : Folder) (path : String) : Except FileError Place := do
  let p ← Path.ofText path
  match ← d.target p with
  | none => throw .resourceBusy
  | some place =>
    if p.slashed then throw .notADirectory
    if d.isFolder place then throw .isADirectory
    return place

/-- The tree with a file at a place, instead of the one that was there. -/
def put (d : Folder) (place : Place) (bytes : List UInt8) : Folder :=
  { d with files := d.files.insert place bytes }

/-- The tree without the file of a place. -/
def remove (d : Folder) (place : Place) : Folder :=
  { d with files := d.files.filterKeys (· ≠ place) }

/-- Writes a file at the end of a path. -/
def write (d : Folder) (path : String) (bytes : List UInt8) : Except FileError Folder := do
  return d.put (← d.destination path) bytes

/-- Moves the file of a place to the end of a path, instead of the one that was there. -/
def move (d : Folder) (old : Place) (path : String) : Except FileError Folder := do
  let place ← d.destination path
  match d.files.get? old with
  | none => throw .notFound
  | some bytes => return (d.remove old).put place bytes

/-! ## Temporary files -/

/-- A name as long as temporary files have. -/
def temporaryName : String := ".temporary"

/-- The folder in which the file for a path is begun, which is the one in front of the last
name of the path. The way to the temporary file starts at the root. -/
def workplace (d : Folder) (path : String) : Except FileError Place := do
  let p ← Path.ofText (Path.join (d.absolute (Path.parent path)) temporaryName)
  d.walk [] p.names.dropLast

/-- The last name of a place. -/
def lastName (place : Place) : String := place.getLast?.getD ""

/-- The length of the longest of some texts. -/
def longest (names : List String) : Nat := names.foldr (fun name n => max name.length n) 0

/-- A place of no file in a folder: its name is longer than those of all files. -/
def unusedPlace (d : Folder) (folder : Place) : Place :=
  folder ++ [String.ofList (List.replicate (longest (d.files.keys.map lastName) + 1) 't')]

/-! ## What the operations leave -/

theorem length_le_longest {name : String} {names : List String} (h : name ∈ names) :
    name.length ≤ longest names := by
  induction names with
  | nil => simp at h
  | cons a rest ih =>
    simp only [longest, List.foldr_cons] at ih ⊢
    rcases List.mem_cons.1 h with rfl | h
    · omega
    · have := ih h
      omega

theorem unusedPlace_notMem (d : Folder) (folder : Place) :
    d.unusedPlace folder ∉ d.files.keys := by
  intro h
  have := length_le_longest (List.mem_map_of_mem (f := lastName) h)
  simp only [unusedPlace, lastName, List.getLast?_concat, Option.getD_some,
    String.length_ofList, List.length_replicate] at this
  omega

/-- At an unused place there is no file. -/
theorem get?_unusedPlace (d : Folder) (folder : Place) :
    d.files.get? (d.unusedPlace folder) = none :=
  Option.eq_none_iff_forall_ne_some.2 fun _ h => d.unusedPlace_notMem folder
    (List.mem_map.2 ⟨_, (SortedMap.mem_entries_iff _ _ _).2 h, rfl⟩)

theorem get?_put (d : Folder) (place q : Place) (bytes : List UInt8) :
    (d.put place bytes).files.get? q = if q = place then some bytes else d.files.get? q :=
  SortedMap.get?_insert d.files place q bytes

theorem get?_remove (d : Folder) (place q : Place) :
    (d.remove place).files.get? q = if q = place then none else d.files.get? q := by
  simp [remove, SortedMap.get?_filterKeys]

/-- A file that was put where none was and is removed again leaves the tree as it was. -/
theorem remove_put {d : Folder} {place : Place} (bytes : List UInt8)
    (h : d.files.get? place = none) : (d.put place bytes).remove place = d := by
  have : ((d.put place bytes).remove place).files = d.files := SortedMap.ext fun q => by
    rw [get?_remove, get?_put]
    by_cases hq : q = place <;> simp [hq, h]
  cases d
  simp only [remove, put] at this ⊢
  rw [this]

end Folder

end SamplingProfile
