-- Merging one function into another: where both have a place their counts are combined,
-- and a callee that only the second one has is copied over, with its counts scaled.
import SamplingProfile.FunctionProfile.Basic

namespace SamplingProfile

/-! ## Scaling -/

/-- Every count taken `weight` times; the number of instructions stays. -/
def Tally.scale (weight : Count) (t : Tally) : Tally :=
  { t with count := t.count.times weight, targets := t.targets.mapValues (·.times weight) }

/-- Every count of a node taken `weight` times. -/
def Body.scale (weight : Count) (b : Body) : Body :=
  { b with
    entryCount := b.entryCount.times weight
    samples := b.samples.mapValues (Tally.scale weight) }

/-- Every count of every node taken `weight` times. -/
def Forest.scale (weight : Count) : Forest → Forest
  | nil => nil
  | cons site body inner rest =>
    cons site (body.scale weight) (inner.scale weight) (rest.scale weight)

@[simp] theorem Forest.sites_scale (weight : Count) (f : Forest) :
    (f.scale weight).sites = f.sites := by
  induction f with
  | nil => rfl
  | cons site body inner rest _ ih => simp [scale, sites, ih]

theorem Forest.ordered_scale (weight : Count) {f : Forest} (h : f.Ordered) :
    (f.scale weight).Ordered := by
  induction f with
  | nil => trivial
  | cons site body inner rest ih ih' =>
    refine ⟨?_, ih h.2.1, ih' h.2.2⟩
    rw [sites_scale]
    exact h.1

/-- Every count of every callee taken `weight` times. -/
def Callees.scale (weight : Count) (c : Callees) : Callees :=
  ⟨c.forest.scale weight, Forest.ordered_scale weight c.ordered⟩

/-- Every count of the function and its callees taken `weight` times. -/
def FunctionProfile.scale (weight : Count) (f : FunctionProfile) : FunctionProfile :=
  { f.toBody.scale weight with callees := f.callees.scale weight }

/-- The function as it joins a profile that has nothing under its name: as it is for the
weight 1, and scaled for any other. -/
def FunctionProfile.weighted (weight : Count) (f : FunctionProfile) : FunctionProfile :=
  if weight = 1 then f else f.scale weight

/-! ## Merging -/

/-- Two tallies of one location. Of the numbers of instructions the larger stays. -/
def Tally.merge (mode : Mode) (weight : Count) (own other : Tally) : Tally where
  count := mode.combine own.count (other.count.times weight)
  instructions := max own.instructions other.instructions
  targets := own.targets.mergeWith
    (fun count new => mode.combine (count.getD 0) (new.times weight)) other.targets

/-- Two bodies of one node. The first keeps its name, and its place in the source unless it
has neither a directory nor a file. -/
def Body.merge (mode : Mode) (weight : Count) (own other : Body) : Body :=
  let placed := if own.file = "" ∧ own.directory = "" then other else own
  { name := own.name
    directory := placed.directory
    file := placed.file
    startLine := placed.startLine
    entryCount := mode.combine own.entryCount (other.entryCount.times weight)
    samples := own.samples.mergeWith
      (fun tally new => (tally.getD {}).merge mode weight new) other.samples }

/-- Joins a forest of callees, one callsite after the other, to callees that are there. -/
def Forest.mergeInto (mode : Mode) (weight : Count) :
    (other : Forest) → other.Ordered → Callees → Callees
  | nil, _, own => own
  | cons site body inner rest, h, own =>
    let callee : FunctionProfile :=
      match own.get? site with
      | none => FunctionProfile.weighted weight { body with callees := ⟨inner, h.2.1⟩ }
      | some f =>
        { f.toBody.merge mode weight body with
          callees := inner.mergeInto mode weight h.2.1 f.callees }
    rest.mergeInto mode weight h.2.2 (own.insert site callee)

/-- Joins the counts of `other`, each taken `weight` times, to a function. -/
def FunctionProfile.merge (mode : Mode) (weight : Count) (own other : FunctionProfile) :
    FunctionProfile :=
  { own.toBody.merge mode weight other.toBody with
    callees := other.callees.forest.mergeInto mode weight other.callees.ordered own.callees }

@[simp] theorem FunctionProfile.name_weighted (weight : Count) (f : FunctionProfile) :
    (f.weighted weight).name = f.name := by
  unfold weighted
  split <;> rfl

@[simp] theorem FunctionProfile.name_merge (mode : Mode) (weight : Count)
    (own other : FunctionProfile) : (own.merge mode weight other).name = own.name := rfl

/-! ## What is found below a callsite afterwards -/

/-- A callee of the function that was joined is joined itself, or comes as it is when there
was none; any other callee stays. -/
def FunctionProfile.joined? (mode : Mode) (weight : Count) (own? : Option FunctionProfile)
    (other? : Option FunctionProfile) : Option FunctionProfile :=
  match other? with
  | none => own?
  | some other =>
    some <| match own? with
      | none => other.weighted weight
      | some own => own.merge mode weight other

theorem Forest.calleeAt?_scale (weight : Count) (q : Callsite) {f : Forest} (h : f.Ordered) :
    (f.scale weight).calleeAt? q (Forest.ordered_scale weight h)
      = (f.calleeAt? q h).map (FunctionProfile.scale weight) := by
  induction f with
  | nil => rfl
  | cons site body inner rest _ ih =>
    simp only [scale, calleeAt?]
    cases compare q site with
    | lt => rfl
    | eq => rfl
    | gt => exact ih h.2.2

theorem Callees.get?_scale (weight : Count) (c : Callees) (q : Callsite) :
    (c.scale weight).get? q = (c.get? q).map (FunctionProfile.scale weight) :=
  Forest.calleeAt?_scale weight q c.ordered

theorem Forest.get?_mergeInto (mode : Mode) (weight : Count) (q : Callsite) {other : Forest}
    (h : other.Ordered) (own : Callees) :
    (other.mergeInto mode weight h own).get? q
      = FunctionProfile.joined? mode weight (own.get? q) (other.calleeAt? q h) := by
  induction other generalizing own with
  | nil => rfl
  | cons site body inner rest _ ih =>
    obtain ⟨hlow, hin, hrest⟩ := h
    show (rest.mergeInto mode weight hrest (own.insert site _)).get? q = _
    rw [ih hrest, Callees.get?_insert]
    cases hc : compare q site with
    | lt =>
      have hq : q ≠ site := fun he => by simp [he] at hc
      have hnone : rest.calleeAt? q hrest = none :=
        calleeAt?_eq_none_of_lt hrest fun s hs => Std.TransCmp.lt_trans hc (hlow s hs)
      simp [calleeAt?, hc, hnone, hq]
    | eq =>
      have hq := Std.compare_eq_iff_eq.1 hc
      subst hq
      have hnone : rest.calleeAt? q hrest = none := calleeAt?_eq_none_of_lt hrest hlow
      simp only [calleeAt?, Std.compare_self, hnone, if_true]
      cases own.get? q <;> rfl
    | gt =>
      have hq : q ≠ site := fun he => by simp [he] at hc
      simp [calleeAt?, hc, hq]

theorem FunctionProfile.callee?_merge (mode : Mode) (weight : Count)
    (own other : FunctionProfile) (q : Callsite) :
    (own.merge mode weight other).callee? q
      = joined? mode weight (own.callee? q) (other.callee? q) :=
  Forest.get?_mergeInto mode weight q other.callees.ordered own.callees

end SamplingProfile
