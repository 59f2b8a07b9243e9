-- The names that callees have themselves, and the names that they are kept under. Sampling and
-- reading keep a callee under its own name, but a tree that is put into a store may keep it
-- under any other. What can be said of a tree whose callees are moved to their own names is said
-- here: nothing is lost as long as no two of them come to stand at one callsite.
import SamplingProfile.Proofs.Store.Entries

namespace SamplingProfile

namespace Forest

/-- The callsites of the first level, with the names that the callees have themselves. -/
def ownSites : Forest → List Callsite
  | nil => []
  | cons site body _ rest => ⟨site.location, body.name⟩ :: rest.ownSites

/-- On every level, no two callees of one name are called from one location. -/
def Apart : Forest → Prop
  | nil => True
  | cons site body inner rest =>
    ⟨site.location, body.name⟩ ∉ rest.ownSites ∧ inner.Apart ∧ rest.Apart

instance decidableApart : (f : Forest) → Decidable f.Apart
  | nil => inferInstanceAs (Decidable True)
  | cons site body inner rest =>
    have := inner.decidableApart
    have := rest.decidableApart
    inferInstanceAs (Decidable
      ((⟨site.location, body.name⟩ : Callsite) ∉ rest.ownSites ∧ inner.Apart ∧ rest.Apart))

/-- The callees of the first level under their own names, and those below them likewise. -/
def underOwnNames : Forest → List (Callsite × FunctionProfile)
  | nil => []
  | cons site body inner rest =>
    (⟨site.location, body.name⟩, { body with callees := .ofList inner.underOwnNames })
      :: rest.underOwnNames

/-- Every callee, at every depth, is kept under its own name. -/
def Named : Forest → Prop
  | nil => True
  | cons site body inner rest => site.callee = body.name ∧ inner.Named ∧ rest.Named

instance decidableNamed : (f : Forest) → Decidable f.Named
  | nil => inferInstanceAs (Decidable True)
  | cons site body inner rest =>
    have := inner.decidableNamed
    have := rest.decidableNamed
    inferInstanceAs (Decidable (site.callee = body.name ∧ inner.Named ∧ rest.Named))

end Forest

/-- The function with its callees, at every depth, under their own names. -/
def FunctionProfile.underOwnNames (f : FunctionProfile) : FunctionProfile :=
  { f.toBody with callees := .ofList f.callees.forest.underOwnNames }

namespace Store

/-- The store with all callees under their own names. -/
def underOwnNames (s : Store) : Store := .ofList (s.toList.map FunctionProfile.underOwnNames)

/-- No two callees of one name are called from one location, in any function of the store. -/
def CalleesApart (s : Store) : Prop := ∀ f ∈ s.toList, f.callees.forest.Apart

/-- Every callee of the store is kept under its own name. -/
def CalleesNamed (s : Store) : Prop := ∀ f ∈ s.toList, f.callees.forest.Named

instance (s : Store) : Decidable s.CalleesApart :=
  inferInstanceAs (Decidable (∀ f ∈ s.toList, f.callees.forest.Apart))

instance (s : Store) : Decidable s.CalleesNamed :=
  inferInstanceAs (Decidable (∀ f ∈ s.toList, f.callees.forest.Named))

end Store

/-! ## Callees that are under their own names -/

namespace Forest

theorem Named.ownSites_eq {f : Forest} (hf : f.Named) : f.ownSites = f.sites := by
  induction f with
  | nil => rfl
  | cons site body inner rest _ ih =>
    rcases hf with ⟨hname, -, hrest⟩
    rw [ownSites, sites, ih hrest, ← hname]

/-- Callsites in order are different, so their callees stay apart. -/
theorem Named.apart {f : Forest} (hf : f.Named) (h : f.Ordered) : f.Apart := by
  induction f with
  | nil => trivial
  | cons site body inner rest ihInner ihRest =>
    rcases hf with ⟨hname, hinner, hrest⟩
    refine ⟨?_, ihInner hinner h.2.1, ihRest hrest h.2.2⟩
    rw [hrest.ownSites_eq, ← hname]
    intro hin
    have hlt := h.1 _ hin
    rw [Std.compare_self] at hlt
    cases hlt

theorem Named.underOwnNames_eq {f : Forest} (hf : f.Named) (h : f.Ordered) :
    f.underOwnNames = f.toList h := by
  induction f with
  | nil => rfl
  | cons site body inner rest ihInner ihRest =>
    rcases hf with ⟨hname, hinner, hrest⟩
    have hcallees : Callees.ofList (inner.toList h.2.1) = ⟨inner, h.2.1⟩ :=
      Callees.ofList_toList ⟨inner, h.2.1⟩
    rw [underOwnNames, toList, ihInner hinner h.2.1, ihRest hrest h.2.2, ← hname, hcallees]

end Forest

theorem FunctionProfile.underOwnNames_of_named {f : FunctionProfile}
    (hf : f.callees.forest.Named) : f.underOwnNames = f := by
  have hcallees := Callees.ofList_toList f.callees
  unfold underOwnNames
  unfold Callees.toList at hcallees
  rw [hf.underOwnNames_eq f.callees.ordered, hcallees]

namespace Store

theorem CalleesNamed.apart {s : Store} (hs : s.CalleesNamed) : s.CalleesApart :=
  fun f hf => (hs f hf).apart f.callees.ordered

theorem CalleesNamed.underOwnNames_eq {s : Store} (hs : s.CalleesNamed) :
    s.underOwnNames = s := by
  have hmap : s.toList.map FunctionProfile.underOwnNames = s.toList.map id :=
    List.map_congr_left fun f hf => FunctionProfile.underOwnNames_of_named (hs f hf)
  unfold underOwnNames
  rw [hmap, List.map_id, ofList_toList]

end Store

end SamplingProfile
