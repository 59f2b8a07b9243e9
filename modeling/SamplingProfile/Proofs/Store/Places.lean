-- The places where a store keeps counts, and what one merge does to each of them. A new node
-- comes in by a copy that is scaled, and a node that is there by joining; at every place the
-- two ways give the same count, so one step says what a merge does.
import SamplingProfile.Store.Merge

namespace SamplingProfile

/-- A place where a store may keep a count. A node is given by the name of its function and
the callsites that lead down to it. -/
inductive CountPlace
  /-- How often a node was entered. -/
  | entry (name : String) (path : List Callsite)
  /-- How often a location of a node was sampled. -/
  | sample (name : String) (path : List Callsite) (location : Location)
  /-- How often a location of a node called a function indirectly. -/
  | target (name : String) (path : List Callsite) (location : Location) (callee : String)
deriving DecidableEq

namespace Store

/-- The node at the end of a path below a function. -/
def nodeAt? (s : Store) (name : String) (path : List Callsite) : Option FunctionProfile :=
  (s.get? name).bind (·.nodeAt? path)

/-- What was sampled at a location of a node. -/
def tallyAt? (s : Store) (name : String) (path : List Callsite) (location : Location) :
    Option Tally :=
  (s.nodeAt? name path).bind (·.samples.get? location)

/-- The count at a place, if the store has the place. -/
def countAt? (s : Store) : CountPlace → Option Count
  | .entry name path => (s.nodeAt? name path).map (·.entryCount)
  | .sample name path location => (s.tallyAt? name path location).map Tally.count
  | .target name path location callee =>
    (s.tallyAt? name path location).bind (·.targets.get? callee)

/-- The number of instructions at a location of a node. -/
def instructionsAt? (s : Store) (name : String) (path : List Callsite) (location : Location) :
    Option Count :=
  (s.tallyAt? name path location).map Tally.instructions

@[simp] theorem tallyAt?_empty (name : String) (path : List Callsite) (location : Location) :
    (∅ : Store).tallyAt? name path location = none := rfl

@[simp] theorem countAt?_empty (place : CountPlace) : (∅ : Store).countAt? place = none := by
  cases place <;> rfl

end Store

/-! ## Nodes -/

namespace FunctionProfile

theorem callee?_scale (weight : Count) (f : FunctionProfile) (site : Callsite) :
    (f.scale weight).callee? site = (f.callee? site).map (scale weight) :=
  Callees.get?_scale weight f.callees site

theorem nodeAt?_scale (weight : Count) (f : FunctionProfile) (path : List Callsite) :
    (f.scale weight).nodeAt? path = (f.nodeAt? path).map (scale weight) := by
  induction path generalizing f with
  | nil => rfl
  | cons site path ih =>
    simp only [nodeAt?, callee?_scale]
    cases f.callee? site with
    | none => rfl
    | some c => exact ih c

theorem nodeAt?_weighted (weight : Count) (f : FunctionProfile) (path : List Callsite) :
    (f.weighted weight).nodeAt? path = (f.nodeAt? path).map (weighted weight) := by
  by_cases h : weight = 1
  · have hid : weighted weight = id := by
      funext g
      rw [weighted, if_pos h, id]
    rw [hid, Option.map_id]
    rfl
  · have hscale : weighted weight = scale weight := by
      funext g
      rw [weighted, if_neg h]
    rw [hscale]
    exact nodeAt?_scale weight f path

/-- The nodes below a path are joined as the functions are. -/
theorem nodeAt?_merge (mode : Mode) (weight : Count) (own other : FunctionProfile)
    (path : List Callsite) :
    (own.merge mode weight other).nodeAt? path
      = joined? mode weight (own.nodeAt? path) (other.nodeAt? path) := by
  induction path generalizing own other with
  | nil => rfl
  | cons site path ih =>
    simp only [nodeAt?, callee?_merge]
    cases other.callee? site with
    | none => rfl
    | some d =>
      cases own.callee? site with
      | none =>
        simp only [joined?, Option.bind_some, Option.bind_none, nodeAt?_weighted]
        cases d.nodeAt? path <;> rfl
      | some c =>
        simp only [joined?, Option.bind_some]
        exact ih c d

end FunctionProfile

theorem Store.nodeAt?_mergeWeighted (mode : Mode) (weight : Count) (s other : Store)
    (name : String) (path : List Callsite) :
    (s.mergeWeighted mode weight other).nodeAt? name path
      = FunctionProfile.joined? mode weight (s.nodeAt? name path) (other.nodeAt? name path) := by
  unfold nodeAt?
  rw [get?_mergeWeighted]
  cases other.get? name with
  | none => rfl
  | some g =>
    cases s.get? name with
    | none =>
      simp only [FunctionProfile.joined?, Option.bind_some, Option.bind_none,
        FunctionProfile.nodeAt?_weighted]
      cases g.nodeAt? path <;> rfl
    | some f => exact FunctionProfile.nodeAt?_merge mode weight f g path

/-! ## Counts -/

/-- The count of a place after one merge: a count of the store that was joined is taken
`weight` times, and combined with the own one if there is one. -/
def Mode.step (mode : Mode) (weight : Count) (own? other? : Option Count) : Option Count :=
  match other? with
  | none => own?
  | some new =>
    some <| match own? with
      | none => new.times weight
      | some own => mode.combine own (new.times weight)

theorem Mode.combine_zero (mode : Mode) (c : Count) : mode.combine 0 c = c := by
  apply UInt64.toNat_inj.1
  have := c.toNat_le_limit
  cases mode with
  | sum =>
    rw [combine, Count.toNat_plus, UInt64.toNat_zero]
    omega
  | max =>
    rw [combine, Count.toNat_max, UInt64.toNat_zero]
    omega

theorem Mode.step_some (mode : Mode) (weight : Count) (own? : Option Count) (new : Count) :
    mode.step weight own? (some new)
      = some (mode.combine (own?.getD 0) (new.times weight)) := by
  cases own? with
  | none => rw [Option.getD_none, combine_zero]; rfl
  | some own => rfl

theorem FunctionProfile.entryCount_weighted (weight : Count) (f : FunctionProfile) :
    (f.weighted weight).entryCount = f.entryCount.times weight := by
  by_cases h : weight = 1
  · rw [weighted, if_pos h, h, Count.times_one]
  · rw [weighted, if_neg h]
    rfl

theorem Tally.scale_one (t : Tally) : t.scale 1 = t := by
  rw [Tally.scale, t.targets.mapValues_eq_self Count.times_one, Count.times_one]

theorem Body.scale_one (b : Body) : b.scale 1 = b := by
  rw [Body.scale, b.samples.mapValues_eq_self Tally.scale_one, Count.times_one]

theorem FunctionProfile.get?_samples_weighted (weight : Count) (f : FunctionProfile)
    (location : Location) :
    (f.weighted weight).samples.get? location
      = (f.samples.get? location).map (Tally.scale weight) := by
  by_cases h : weight = 1
  · rw [weighted, if_pos h, h]
    cases f.samples.get? location with
    | none => rfl
    | some t => rw [Option.map_some, Tally.scale_one]
  · rw [weighted, if_neg h]
    exact SortedMap.get?_mapValues f.samples (Tally.scale weight) location

theorem FunctionProfile.get?_samples_merge (mode : Mode) (weight : Count)
    (own other : FunctionProfile) (location : Location) :
    (own.merge mode weight other).samples.get? location
      = match other.samples.get? location with
        | none => own.samples.get? location
        | some new => some (((own.samples.get? location).getD {}).merge mode weight new) := by
  simp only [merge, Body.merge, SortedMap.get?_mergeWith]
  cases other.samples.get? location <;> rfl

/-- What a location holds after one merge. A location that is new at a node that is there
joins an empty tally, and one of a new node is copied: the counts are the same. -/
theorem Store.tallyAt?_mergeWeighted (mode : Mode) (weight : Count) (s other : Store)
    (name : String) (path : List Callsite) (location : Location) :
    (s.mergeWeighted mode weight other).tallyAt? name path location
      = match other.tallyAt? name path location with
        | none => s.tallyAt? name path location
        | some new =>
          match s.nodeAt? name path with
          | none => some (new.scale weight)
          | some _ =>
            some (((s.tallyAt? name path location).getD {}).merge mode weight new) := by
  unfold tallyAt?
  rw [nodeAt?_mergeWeighted]
  cases other.nodeAt? name path with
  | none => rfl
  | some g =>
    cases s.nodeAt? name path with
    | none =>
      simp only [FunctionProfile.joined?, Option.bind_some, Option.bind_none,
        FunctionProfile.get?_samples_weighted]
      cases g.samples.get? location <;> rfl
    | some f =>
      simp only [FunctionProfile.joined?, Option.bind_some,
        FunctionProfile.get?_samples_merge]

/-- A merge is one step at every place. -/
theorem Store.countAt?_mergeWeighted (mode : Mode) (weight : Count) (s other : Store)
    (place : CountPlace) :
    (s.mergeWeighted mode weight other).countAt? place
      = mode.step weight (s.countAt? place) (other.countAt? place) := by
  cases place with
  | entry name path =>
    simp only [countAt?, nodeAt?_mergeWeighted]
    cases other.nodeAt? name path with
    | none => rfl
    | some g =>
      cases s.nodeAt? name path with
      | none =>
        simp only [FunctionProfile.joined?, Option.map_some, FunctionProfile.entryCount_weighted]
        rfl
      | some f => rfl
  | sample name path location =>
    simp only [countAt?, tallyAt?_mergeWeighted]
    cases other.tallyAt? name path location with
    | none => rfl
    | some new =>
      rw [Option.map_some, Mode.step_some]
      cases hn : s.nodeAt? name path with
      | none =>
        simp only [tallyAt?, hn, Option.bind_none, Option.map_none, Option.getD_none,
          Mode.combine_zero]
        rfl
      | some f => cases s.tallyAt? name path location <;> rfl
  | target name path location callee =>
    simp only [countAt?, tallyAt?_mergeWeighted]
    cases other.tallyAt? name path location with
    | none => rfl
    | some new =>
      cases hn : s.nodeAt? name path with
      | none =>
        simp only [tallyAt?, hn, Option.bind_none, Option.bind_some, Tally.scale,
          SortedMap.get?_mapValues]
        cases new.targets.get? callee <;> rfl
      | some f =>
        simp only [Option.bind_some, Tally.merge, SortedMap.get?_mergeWith]
        cases new.targets.get? callee with
        | none => cases s.tallyAt? name path location <;> rfl
        | some c =>
          rw [Mode.step_some]
          cases s.tallyAt? name path location <;> rfl

/-- Of the numbers of instructions a merge keeps the larger, whatever the mode and weight. -/
theorem Store.instructionsAt?_mergeWeighted (mode : Mode) (weight : Count) (s other : Store)
    (name : String) (path : List Callsite) (location : Location) :
    (s.mergeWeighted mode weight other).instructionsAt? name path location
      = Mode.max.step 1 (s.instructionsAt? name path location)
          (other.instructionsAt? name path location) := by
  simp only [instructionsAt?, tallyAt?_mergeWeighted]
  cases other.tallyAt? name path location with
  | none => rfl
  | some new =>
    rw [Option.map_some, Mode.step_some, Count.times_one]
    cases hn : s.nodeAt? name path with
    | none =>
      simp only [tallyAt?, hn, Option.bind_none, Option.map_none, Option.getD_none,
        Mode.combine_zero]
      rfl
    | some f => cases s.tallyAt? name path location <;> rfl

end SamplingProfile
