-- Taking profiles into a store that is there already. A profile is taken whole or not at
-- all, and the intake remembers what the last one said beside its functions.
import SamplingProfile.Profile

namespace SamplingProfile

/-- A store that takes in profiles, with the version and the summary of the last one. -/
structure Intake where
  store : Store
  /-- Whether the functions of a profile replace those that are there. -/
  replace : Bool
  version? : Option Nat := none
  summary? : Option Summary := none
deriving DecidableEq

namespace Intake

/-- An intake that has taken no profile. -/
def ofStore (store : Store) (replace : Bool) : Intake := { store, replace }

/-- Takes one function of a profile. -/
def takeFunction (replace : Bool) (s : Store) (f : FunctionProfile) : Store :=
  if s.contains f.name && !replace then s else s.insert f

/-- Takes a profile in whatever form it is. Bytes that are no profile leave the store as it
was, and what the last profile said is forgotten. -/
def take (i : Intake) (bytes : List UInt8) : Intake × Except ReadError Unit :=
  match Profile.ofBytes bytes with
  | .error e => ({ i with version? := none, summary? := none }, .error e)
  | .ok p =>
    ({ i with
        store := p.store.toList.foldl (takeFunction i.replace) i.store
        version? := p.version?
        summary? := p.summary? }, .ok ())

end Intake

end SamplingProfile
