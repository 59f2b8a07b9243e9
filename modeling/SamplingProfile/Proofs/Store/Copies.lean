-- Copying and joining. What a profile does not have yet is copied into it with its counts scaled,
-- and what it has is joined. Where there is an empty node of the same name, joining gives the copy.
-- So it makes no difference whether room is made for a function or a callee before it comes.
import SamplingProfile.Proofs.Store.MergeLaws

namespace SamplingProfile

/-! ## One place -/

/-- What joins an empty node of its name is copied. -/
theorem Body.merge_ofName (mode : Mode) (weight : Count) (b : Body) :
    ({ name := b.name } : Body).merge mode weight b = b.scale weight := by
  simp only [merge, scale, and_self, if_true, Mode.combine_zero, SortedMap.empty_mergeWith,
    Option.getD_none, Tally.merge_empty]

/-- A place before and after room is made there for what will come. It stays as it is, or nothing
was there and now there is an empty node of the name of what will come. -/
inductive MakesRoom (coming? : Option Body) : Option Body → Option Body → Prop
  | same (own? : Option Body) : MakesRoom coming? own? own?
  | empty {b : Body} (h : coming? = some b) : MakesRoom coming? none (some { name := b.name })

theorem MakesRoom.joinedWith?_eq {own? room? coming? : Option Body}
    (h : MakesRoom coming? own? room?) (mode : Mode) (weight : Count) :
    joinedWith? Body.scale (Body.merge mode) weight room? coming?
      = joinedWith? Body.scale (Body.merge mode) weight own? coming? := by
  cases h with
  | same => rfl
  | empty h =>
    subst h
    exact congrArg some (Body.merge_ofName mode weight _)

/-! ## Trees -/

namespace FunctionProfile

variable {f c : FunctionProfile} {site : Callsite}

theorem bodyAt?_weighted (weight : Count) (f : FunctionProfile) (path : List Callsite) :
    (f.weighted weight).bodyAt? path = (f.bodyAt? path).map (Body.scale weight) := by
  unfold bodyAt?
  rw [nodeAt?_weighted, Option.map_map, Option.map_map]
  congr 1
  exact funext (toBody_weighted weight)

theorem bodyAt?_merge (mode : Mode) (weight : Count) (own other : FunctionProfile)
    (path : List Callsite) :
    (own.merge mode weight other).bodyAt? path
      = joinedWith? Body.scale (Body.merge mode) weight (own.bodyAt? path)
          (other.bodyAt? path) := by
  unfold bodyAt?
  rw [nodeAt?_merge]
  cases other.nodeAt? path with
  | none => rfl
  | some d =>
    cases own.nodeAt? path with
    | none => exact congrArg some (toBody_weighted weight d)
    | some c => rfl

/-- An empty function is room for a whole tree of its name. -/
theorem makesRoom_ofName (f : FunctionProfile) (path : List Callsite) :
    MakesRoom (f.bodyAt? path) none ((ofName f.name).bodyAt? path) := by
  cases path with
  | nil => exact .empty rfl
  | cons site path => exact .same none

/-- An empty callee is room for the one that comes, and for all that is below it. -/
theorem makesRoom_insert (hnew : f.callee? site = none) {other : FunctionProfile}
    (hother : other.callee? site = some c) (path : List Callsite) :
    MakesRoom (other.bodyAt? path) (f.bodyAt? path)
      (({ f with callees := f.callees.insert site (ofName c.name) } : FunctionProfile).bodyAt?
        path) := by
  cases path with
  | nil => exact .same _
  | cons q path =>
    have hcallee : ({ f with callees := f.callees.insert site (ofName c.name) }
        : FunctionProfile).callee? q = if q = site then some (ofName c.name) else f.callee? q :=
      Callees.get?_insert f.callees site q _
    rw [bodyAt?_cons, bodyAt?_cons, bodyAt?_cons, hcallee]
    by_cases hq : q = site
    · subst hq
      rw [if_pos rfl, hnew, hother]
      exact makesRoom_ofName c path
    · rw [if_neg hq]
      exact .same _

theorem merge_of_makesRoom {own room other : FunctionProfile}
    (h : ∀ path, MakesRoom (other.bodyAt? path) (own.bodyAt? path) (room.bodyAt? path))
    (mode : Mode) (weight : Count) :
    room.merge mode weight other = own.merge mode weight other := by
  apply eq_of_bodyAt?_eq
  intro path
  rw [bodyAt?_merge, bodyAt?_merge, (h path).joinedWith?_eq]

/-- A tree that joins an empty function of its name is the tree that is copied. -/
theorem merge_ofName (mode : Mode) (weight : Count) (f : FunctionProfile) :
    (ofName f.name).merge mode weight f = f.weighted weight := by
  apply eq_of_bodyAt?_eq
  intro path
  rw [bodyAt?_merge, (makesRoom_ofName f path).joinedWith?_eq, bodyAt?_weighted]
  cases f.bodyAt? path <;> rfl

end FunctionProfile

/-! ## Stores -/

namespace Store

/-- An empty function is room for the one of its name that comes. -/
theorem makesRoom_insert {s other : Store} {f : FunctionProfile} (hnew : s.get? f.name = none)
    (hother : other.get? f.name = some f) (name : String) (path : List Callsite) :
    MakesRoom (other.bodyAt? name path) (s.bodyAt? name path)
      ((s.insert (.ofName f.name)).bodyAt? name path) := by
  have hofName : (FunctionProfile.ofName f.name).name = f.name := rfl
  rw [bodyAt?_insert, hofName]
  by_cases hname : name = f.name
  · subst hname
    unfold bodyAt?
    rw [if_pos rfl, hnew, hother]
    exact f.makesRoom_ofName path
  · rw [if_neg hname]
    exact .same _

theorem mergeWeighted_of_makesRoom {s room other : Store}
    (h : ∀ name path,
      MakesRoom (other.bodyAt? name path) (s.bodyAt? name path) (room.bodyAt? name path))
    (mode : Mode) (weight : Count) :
    room.mergeWeighted mode weight other = s.mergeWeighted mode weight other := by
  apply eq_of_bodyAt?_eq
  intro name path
  rw [bodyAt?_mergeWeighted, bodyAt?_mergeWeighted, (h name path).joinedWith?_eq]

/-- A tree that joins an empty function of its name is the tree as it is for the weight 1, and the
tree with all counts scaled for any other. So functions and callees that a profile does not have
come to the same tree as those for which there are empty nodes, wherever these are. -/
theorem copying_is_joining (mode : Mode) (weight : Count) :
    (∀ f : FunctionProfile, (FunctionProfile.ofName f.name).merge mode weight f
      = if weight = 1 then f else f.scale weight) ∧
    (∀ own room other : FunctionProfile,
      (∀ path, MakesRoom (other.bodyAt? path) (own.bodyAt? path) (room.bodyAt? path)) →
        room.merge mode weight other = own.merge mode weight other) ∧
    ∀ s room other : Store,
      (∀ name path,
        MakesRoom (other.bodyAt? name path) (s.bodyAt? name path) (room.bodyAt? name path)) →
        room.mergeWeighted mode weight other = s.mergeWeighted mode weight other := by
  refine ⟨fun f => FunctionProfile.merge_ofName mode weight f, fun own room other h => ?_,
    fun s room other h => ?_⟩
  · exact FunctionProfile.merge_of_makesRoom h mode weight
  · exact mergeWeighted_of_makesRoom h mode weight

/-- A function that calls another one, with a place in the source and numbers of instructions. -/
def placedCaller : FunctionProfile where
  name := "main"
  file := "main.c"
  startLine := 4
  entryCount := 7
  callees := .ofList [(⟨⟨65536⟩, "g"⟩, {
    name := "g"
    startLine := 2
    samples := .ofList [(⟨0⟩, { count := 3, instructions := 5, targets := .ofList [("h", 2)] })] })]

/-- Room for a function in a store without functions, and for a callee in a function without
callees. -/
theorem room_for_placedCaller :
    (FunctionProfile.ofName "main").merge .sum 0 placedCaller = placedCaller.scale 0 ∧
    (FunctionProfile.ofName "main").merge .max 1 placedCaller = placedCaller ∧
    ((∅ : Store).insert (.ofName "main")).mergeWeighted .max 3 (.ofList [placedCaller])
      = (∅ : Store).mergeWeighted .max 3 (.ofList [placedCaller]) ∧
    ({ FunctionProfile.ofName "main" with
        callees := Callees.insert ∅ ⟨⟨65536⟩, "g"⟩ (.ofName "g") } : FunctionProfile).merge .sum 2
          placedCaller
      = (FunctionProfile.ofName "main").merge .sum 2 placedCaller := by
  have hcallee : placedCaller.callee? ⟨⟨65536⟩, "g"⟩ = some {
      name := "g"
      startLine := 2
      samples := .ofList
        [(⟨0⟩, { count := 3, instructions := 5, targets := .ofList [("h", 2)] })] } := rfl
  have hother : (Store.ofList [placedCaller]).get? "main" = some placedCaller := rfl
  refine ⟨(copying_is_joining .sum 0).1 placedCaller, (copying_is_joining .max 1).1 placedCaller,
    (copying_is_joining .max 3).2.2 _ _ _ (makesRoom_insert (f := placedCaller) rfl hother),
    (copying_is_joining .sum 2).2.1 _ _ _ (FunctionProfile.makesRoom_insert rfl hcallee)⟩

end Store

end SamplingProfile
