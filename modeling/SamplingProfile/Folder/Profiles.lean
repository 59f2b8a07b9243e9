-- Profiles in the files of a folder. A profile is written to a file that was not there and
-- takes the place of the old one only when it is whole, so an error leaves every file as it
-- was.
import SamplingProfile.Folder.Stability
import SamplingProfile.Intake
import SamplingProfile.Writing.Output

namespace SamplingProfile

/-- Why a profile cannot be read from a file or written to one. -/
inductive ProfileError
  | file (e : FileError)
  | read (e : ReadError)
  | write (e : WriteError)
deriving DecidableEq, Repr

/-- What is said of the error. -/
def ProfileError.message : ProfileError → String
  | .file e => e.kind
  | .read e => e.message
  | .write e => e.message

namespace Folder

/-- Reads the profile in a file. -/
def readProfile (d : Folder) (path : String) : Except ProfileError Profile :=
  match d.read path with
  | .error e => .error (.file e)
  | .ok bytes => (Profile.ofBytes bytes).mapError .read

/-- Writes what a writer produces to a file. The bytes go to a temporary file, which is moved
to the end of the path when it is whole and is removed when it cannot be. -/
def writeProfile (d : Folder) (path : String) (output : Output) :
    Folder × Except ProfileError Unit :=
  match d.workplace path with
  | .error e => (d, .error (.file e))
  | .ok folder =>
    let temporary := d.unusedPlace folder
    let begun := d.put temporary output.bytes
    match output.error? with
    | some e => (begun.remove temporary, .error (.write e))
    | none =>
      match begun.move temporary path with
      | .error e => (begun.remove temporary, .error (.file e))
      | .ok moved => (moved, .ok ())

end Folder

/-- Takes the profile in a file of a folder. Without the file the intake stays as it was. -/
def Intake.takeFile (i : Intake) (d : Folder) (path : String) :
    Intake × Except ProfileError Unit :=
  match d.read path with
  | .error e => (i, .error (.file e))
  | .ok bytes =>
    let (i, result) := i.take bytes
    (i, result.mapError .read)

/-! ## What writing leaves -/

/-- A profile that is not written leaves the folder as it was. -/
theorem Folder.writeProfile_of_error {d d' : Folder} {path : String} {output : Output}
    {e : ProfileError} (h : d.writeProfile path output = (d', .error e)) : d' = d := by
  unfold Folder.writeProfile at h
  have removed := fun folder bytes => Folder.remove_put bytes (d.get?_unusedPlace folder)
  split at h
  · cases h; rfl
  · simp only at h
    split at h
    · cases h; exact removed _ _
    · split at h
      · cases h; exact removed _ _
      · cases h

/-- A profile that is written gets the place of its path, and no other file changes. -/
theorem Folder.writeProfile_of_ok {d d' : Folder} {path : String} {output : Output}
    (h : d.writeProfile path output = (d', .ok ())) :
    ∃ place, d.destination path = .ok place ∧ output.error? = none ∧
      d' = d.put place output.bytes := by
  unfold Folder.writeProfile at h
  split at h
  · cases h
  · next folder hw =>
    have hu : d.isFolder (d.unusedPlace folder).dropLast = true := by
      simpa [Folder.unusedPlace] using Folder.isFolder_workplace hw
    have hf := Folder.isFolder_put output.bytes hu
    simp only at h
    split at h
    · cases h
    · next hn =>
      split at h
      · cases h
      · next moved hm =>
        cases h
        unfold Folder.move at hm
        simp only [bind, Except.bind] at hm
        split at hm
        · cases hm
        · next place hd =>
          refine ⟨place, Folder.destination_of_isFolder (fun q => (hf q).symm) rfl hd, hn, ?_⟩
          rw [Folder.get?_put, if_pos rfl, Folder.remove_put _ (d.get?_unusedPlace folder)] at hm
          cases hm
          rfl

/-- The bytes of a profile that is written are at the end of its path. -/
theorem Folder.read_of_writeProfile {d d' : Folder} {path : String} {output : Output}
    (h : d.writeProfile path output = (d', .ok ())) : d'.read path = .ok output.bytes := by
  obtain ⟨place, hd, _, rfl⟩ := Folder.writeProfile_of_ok h
  exact Folder.read_put_destination output.bytes hd

end SamplingProfile
