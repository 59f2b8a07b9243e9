-- What a binary profile can announce. Every part takes a byte or more, so the loops over the parts
-- end when the bytes do, whatever numbers stand in them; and no profile has more parts than it has
-- bytes.
import Mathlib.Algebra.BigOperators.Group.List.Basic
import SamplingProfile.Proofs.Binary.Delimited
import SamplingProfile.Proofs.Binary.Trees
import SamplingProfile.Proofs.Reading.Progress
import SamplingProfile.Proofs.Store.Bodies

namespace SamplingProfile

open Reader

/-! ## Putting things together -/

/-- Where each step adds no more than its cost, a run adds no more than all the costs. -/
theorem weigh_foldl_le {μ ι : Type} (weigh : μ → Nat) (cost : ι → Nat) (step : μ → ι → μ)
    (h : ∀ m x, weigh (step m x) ≤ cost x + weigh m) (xs : List ι) (m : μ) :
    weigh (xs.foldl step m) ≤ (xs.map cost).sum + weigh m := by
  induction xs generalizing m with
  | nil => simp
  | cons x xs ih =>
    have hstep := h m x
    have hrun := ih (step m x)
    rw [List.foldl_cons, List.map_cons, List.sum_cons]
    omega

theorem sum_map_one {ι : Type} (xs : List ι) : (xs.map fun _ => 1).sum = xs.length := by
  rw [List.map_const', List.sum_replicate_nat, Nat.mul_one]

namespace SortedMap

variable {κ α : Type} [Ord κ] [Std.TransOrd κ] [Std.LawfulEqOrd κ] (size : α → Nat)

theorem sum_insert_le (m : SortedMap κ α) (key : κ) (value : α) :
    ((m.insert key value).values.map size).sum ≤ size value + (m.values.map size).sum := by
  obtain ⟨front, back, hinsert, hvalues⟩ := values_insert m key value
  rw [hinsert, hvalues]
  simp only [List.map_append, List.map_cons, List.sum_append_nat, List.sum_cons]
  omega

theorem sum_ofList_le (es : List (κ × α)) :
    ((ofList es).values.map size).sum ≤ (es.map fun e => size e.2).sum :=
  weigh_foldl_le (fun m => (m.values.map size).sum) (fun e => size e.2)
    (fun m e => m.insert e.1 e.2) (fun m e => sum_insert_le size m e.1 e.2) es empty

theorem size_ofList_le (es : List (κ × α)) : (ofList es).size ≤ es.length := by
  have hsum := sum_ofList_le (fun _ => 1) es
  rwa [sum_map_one, sum_map_one, values, List.length_map] at hsum

end SortedMap

/-! ## The parts of a store -/

/-- A node with its locations and with the functions called from each, all of them counted. -/
def Body.parts (b : Body) : Nat :=
  1 + (b.samples.values.map fun tally => 1 + tally.targets.size).sum

/-- The parts of a function and its callees. -/
def FunctionProfile.parts (f : FunctionProfile) : Nat := (f.bodies.map Body.parts).sum

theorem Callees.parts_insert_le (c : Callees) (site : Callsite) (callee : FunctionProfile) :
    ((c.insert site callee).forest.bodies.map Body.parts).sum
      ≤ callee.parts + (c.forest.bodies.map Body.parts).sum := by
  obtain ⟨front, back, hinsert, hbodies⟩ := c.bodies_insert site callee
  rw [hinsert, hbodies, FunctionProfile.parts]
  simp only [List.map_append, List.sum_append_nat]
  omega

theorem FunctionProfile.parts_ofList_le (body : Body) (es : List (Callsite × FunctionProfile)) :
    ({ body with callees := .ofList es } : FunctionProfile).parts
      ≤ (es.map fun e => e.2.parts).sum + body.parts := by
  have hrun := weigh_foldl_le (fun c : Callees => (c.forest.bodies.map Body.parts).sum)
    (fun e => e.2.parts) (fun c e => c.insert e.1 e.2)
    (fun c e => c.parts_insert_le e.1 e.2) es ∅
  rw [parts, bodies, List.map_cons, List.sum_cons, Nat.add_comm]
  exact Nat.add_le_add_right hrun body.parts

theorem Store.parts_ofList_le (fs : List FunctionProfile) :
    ((ofList fs).bodies.map Body.parts).sum ≤ (fs.map FunctionProfile.parts).sum := by
  have hbodies : ∀ s : Store, (s.bodies.map Body.parts).sum
      = (s.functions.values.map FunctionProfile.parts).sum := by
    intro s
    rw [bodies, List.map_flatMap, List.flatMap_def, List.sum_flatten, List.map_map]
    rfl
  refine weigh_foldl_le (fun s : Store => (s.bodies.map Body.parts).sum) FunctionProfile.parts
    insert (fun s f => ?_) fs ∅
  rw [hbodies, hbodies]
  exact SortedMap.sum_insert_le _ s.functions f.name f

theorem Store.sum_parts (s : Store) :
    (s.bodies.map Body.parts).sum = s.bodies.length + (s.bodies.map fun b => b.samples.size).sum
      + (s.bodies.map fun b => (b.samples.values.map fun tally => tally.targets.size).sum).sum := by
  have hbody : ∀ b : Body, b.parts
      = 1 + b.samples.size + (b.samples.values.map fun tally => tally.targets.size).sum := by
    intro b
    rw [Body.parts, List.sum_map_add, sum_map_one, SortedMap.values, List.length_map,
      Nat.add_assoc]
    rfl
  rw [List.map_congr_left fun b _ => hbody b, List.sum_map_add, List.sum_map_add, sum_map_one]

namespace Binary.Layout

variable (l : Layout) (table : NameArray)

/-! ## What the bytes of a part pay for -/

theorem consuming_readName : (l.readName table).Consuming := by
  unfold readName
  split
  · exact consuming_readText l
  all_goals
    intro span a rest h
    rw [bind_of_ok (run_get span)] at h
    refine (consuming_readSmall l).bind (fun index => ?_) span a rest h
    split
    · exact delimited_pure _
    · exact delimited_failAt _ _

theorem affords_readTarget : (l.readTarget table).Affords 0 fun _ => 1 :=
  ((consuming_readName l table).affords 0).bind fun _ =>
    ((delimited_readCount l).affords 1).bind fun _ => affords_pure (Nat.le_refl 1)

theorem affords_readSample : (l.readSample table).Affords 0 fun e => 1 + e.2.targets.size := by
  refine ((consuming_readWord l).affords 0).bind fun packed =>
    ((delimited_readCount l).affords _).bind fun count =>
    ((delimited_readCount l).affords _).bind fun instructions =>
    ((delimited_readSmall l).affords _).bind fun targets =>
    (((affords_readTarget l table).distinct _ targets []).keep _).bind fun entries =>
    affords_pure ?_
  have hsize := SortedMap.size_ofList_le entries
  rw [sum_map_one]
  dsimp only
  omega

theorem affords_readBody : (l.readBody table).Affords 0 Body.parts := by
  refine ((consuming_readName l table).affords 0).bind fun name =>
    ((delimited_readName l table).affords _).bind fun directory =>
    ((delimited_readName l table).affords _).bind fun file =>
    ((delimited_readWord l).affords _).bind fun startLine =>
    ((delimited_readCount l).affords _).bind fun entryCount =>
    ((delimited_readSmall l).affords _).bind fun locations =>
    (((affords_readSample l table).distinct _ locations []).keep _).bind fun samples =>
    affords_pure ?_
  have hsum := SortedMap.sum_ofList_le (fun tally : Tally => 1 + tally.targets.size) samples
  dsimp only [Body.parts]
  omega

theorem affords_readCallee {levels : Nat}
    (h : (l.readFunction table levels).Affords 0 FunctionProfile.parts) :
    (l.readCallee table levels).Affords 0 fun e => e.2.parts :=
  ((delimited_readWord l).affords 0).bind fun _ => h.bind fun _ => affords_pure (Nat.le_refl _)

theorem affords_readFunction (levels : Nat) :
    (l.readFunction table levels).Affords 0 FunctionProfile.parts := by
  induction levels with
  | zero => exact fun _ _ _ hr => nomatch hr
  | succ levels ih =>
    rw [readFunction_succ]
    exact (affords_readBody l table).bind fun body =>
      ((delimited_readSmall l).affords _).bind fun callsites =>
      (((affords_readCallee l table ih).distinct _ callsites []).keep _).bind fun callees =>
      affords_pure (FunctionProfile.parts_ofList_le body callees)

theorem affords_readEntry : (l.readEntry table).Affords 0 fun e => e.2.parts :=
  ((affords_readFunction l table _).within .function).bind fun _ => affords_pure (Nat.le_refl _)

theorem affords_readSummaryFields : l.readSummaryFields.Affords 0 fun x => x.coverage.length := by
  refine ((delimited_readCount l).affords 0).bind fun totalCount =>
    ((delimited_readCount l).affords _).bind fun maxCount =>
    ((delimited_readCount l).affords _).bind fun maxEntryCount =>
    ((delimited_readSmall l).affords _).bind fun numCounts =>
    ((delimited_readSmall l).affords _).bind fun numFunctions =>
    ((delimited_readSmall l).affords _).bind fun entries =>
    (affords_ensure entries _).bind fun _ =>
    (((consuming_readCoverage l).affords 0).repeated entries).bind fun coverage =>
    affords_pure ?_
  rw [Nat.zero_add, sum_map_one]

theorem affords_readSummary :
    l.readSummary.Affords 0 fun x? => x?.elim 0 fun x => x.coverage.length := by
  refine ((delimited_littleEndian 1).affords 0).bind fun flag => ?_
  split
  · exact affords_pure (Nat.le_refl 0)
  · exact (affords_readSummaryFields l).bind fun x => affords_pure (Nat.le_refl _)
  · exact fun _ _ _ hr => nomatch hr

theorem affords_readSections : l.readSections.Affords 0 fun content =>
    (content.2.elim 0 fun x => x.coverage.length) + (content.1.bodies.map Body.parts).sum := by
  refine ((affords_readSummary l).within .summary).bind fun summary? =>
    ((delimited_within .nameTable (delimited_readTable l)).affords _).bind fun table =>
    ((delimited_readSmall l).affords _).bind fun count =>
    (((affords_readEntry l table).distinct _ count []).keep _).bind fun functions =>
    affords_pure ?_
  have hparts := Store.parts_ofList_le (functions.map Prod.snd)
  rw [List.map_map] at hparts
  dsimp only [Function.comp_def] at hparts ⊢
  omega

/-! ## What the loops read -/

theorem one_le_parts (f : FunctionProfile) : 1 ≤ f.parts := by
  rw [FunctionProfile.parts, FunctionProfile.bodies, List.map_cons, List.sum_cons, Body.parts]
  omega

theorem progresses_readFunction (levels : Nat) : (l.readFunction table levels).Progresses :=
  (delimited_readFunction l table levels).progresses
    ((affords_readFunction l table levels).consuming one_le_parts)

theorem progresses_readEntry : (l.readEntry table).Progresses :=
  (delimited_readEntry l table).progresses
    ((affords_readEntry l table).consuming fun e => one_le_parts e.2)

theorem progresses_readCallee (levels : Nat) : (l.readCallee table levels).Progresses := by
  have hpaid := affords_readCallee l table (affords_readFunction l table levels)
  have hcallee : (l.readCallee table levels).Delimited :=
    (delimited_readWord l).bind fun _ =>
      (delimited_readFunction l table levels).bind fun _ => delimited_pure _
  exact hcallee.progresses (hpaid.consuming fun e => one_le_parts e.2)

theorem progresses_readSample : (l.readSample table).Progresses :=
  (delimited_readSample l table).progresses
    ((affords_readSample l table).consuming fun _ => Nat.le_add_right 1 _)

theorem progresses_readTarget : (l.readTarget table).Progresses :=
  (delimited_readTarget l table).progresses
    ((affords_readTarget l table).consuming fun _ => Nat.le_refl 1)

theorem progresses_readCoverage : l.readCoverage.Progresses :=
  (delimited_readCoverage l).progresses (consuming_readCoverage l)

theorem progresses_readText : l.readText.Progresses :=
  (delimited_readText l).progresses (consuming_readText l)

end Binary.Layout

theorem NameList.progresses_name : NameList.name.Progresses :=
  Delimited.progresses (delimited_leb128.bind fun n => delimited_text n)
    (consuming_leb128.bind fun n => delimited_text n)

namespace Profile

open Binary

theorem affords_readVersioned : readVersioned.Affords 0 fun p =>
    (p.summary?.elim 0 fun x => x.coverage.length) + (p.store.bodies.map Body.parts).sum := by
  refine ((delimited_littleEndian 8).affords 0).bind fun number => ?_
  split
  · exact (Layout.affords_readSections _).bind fun content => affords_pure (Nat.le_refl _)
  · exact fun _ _ _ hr => nomatch hr

/-- Whatever numbers a binary profile announces: a function that is read leaves a strict part of
the bytes, and so does every round of the loops over the coverage, over the names of both kinds of
table, over functions, locations, targets and callsites. So of each loop no more rounds begin than
there are bytes left and one more, and these decide what the loop gives. And a profile that is read
has, all taken together, no more cutoffs, nodes, locations and targets than bytes. -/
theorem binary_profile_is_bounded :
    (∀ (l : Layout) (table : NameArray) (levels : Nat),
      (l.readFunction table levels).Progresses ∧
      (Loop.repeated l.readCoverage).Ends ∧
      (Loop.repeated l.readText).Ends ∧ Loop.names.Ends ∧
      (Loop.distinct .duplicateFunction (l.readEntry table)).Ends ∧
      (Loop.distinct .duplicateLocation (l.readSample table)).Ends ∧
      (Loop.distinct .duplicateTarget (l.readTarget table)).Ends ∧
      (Loop.distinct .duplicateCallsite (l.readCallee table levels)).Ends) ∧
    ∀ bytes p v, Profile.ofBytes bytes = .ok p → p.format = .binary v →
      (p.summary?.elim 0 fun x => x.coverage.length) + p.store.bodies.length
        + (p.store.bodies.map fun b => b.samples.size).sum
        + (p.store.bodies.map fun b =>
            (b.samples.values.map fun tally => tally.targets.size).sum).sum ≤ bytes.length := by
  refine ⟨fun l table levels => ⟨Layout.progresses_readFunction l table levels,
    Loop.ends_repeated (Layout.progresses_readCoverage l),
    Loop.ends_repeated (Layout.progresses_readText l), Loop.ends_names NameList.progresses_name,
    Loop.ends_distinct _ (Layout.progresses_readEntry l table),
    Loop.ends_distinct _ (Layout.progresses_readSample l table),
    Loop.ends_distinct _ (Layout.progresses_readTarget l table),
    Loop.ends_distinct _ (Layout.progresses_readCallee l table levels)⟩, ?_⟩
  intro bytes p v h hp
  obtain ⟨tail, rest, rfl, hread, -⟩ := versioned_of_ofBytes h hp
  have hpaid := affords_readVersioned _ _ _ hread
  dsimp only at hpaid
  rw [Store.sum_parts] at hpaid
  rw [List.length_append]
  omega

/-- A function with a location, a target and a callee, behind a summary of one cutoff. -/
def calledMain : List UInt8 :=
  magic ++ [3, 0, 0, 0, 0, 0, 0, 0, 1, 12, 7, 1, 2, 1, 1, 0xa0, 0xc2, 0x1e, 7, 1]
    ++ [4, 7, 0, 0, 1, 0x66, 1, 0x67, 1, 0x68]
    ++ [1, 1, 0, 0, 0, 1, 1, 9, 5, 1, 1, 3, 2, 1, 4, 2, 0, 0, 0, 0, 1, 3, 7, 1, 0, 0]

/-- One cutoff, two nodes, two locations and one target take 64 bytes. -/
theorem calledMain_is_bounded :
    ∃ p, Profile.ofBytes calledMain = .ok p ∧ p.format = .binary .compact ∧
      (p.summary?.elim 0 fun x => x.coverage.length) = 1 ∧ p.store.bodies.length = 2 ∧
      (p.store.bodies.map fun b => b.samples.size) = [1, 1] ∧
      (p.store.bodies.map fun b =>
        (b.samples.values.map fun tally => tally.targets.size).sum) = [1, 0] ∧
      1 + 2 + [1, 1].sum + [1, 0].sum ≤ calledMain.length := by
  have hread : Profile.ofBytes calledMain = .ok {
      format := .binary .compact
      store := .ofList [{
        name := "f", entryCount := 1
        samples := .ofList [(⟨9⟩, { count := 5, instructions := 1, targets := .ofList [("h", 2)] })]
        callees := .ofList [(⟨⟨4⟩, "g"⟩, {
          name := "g", samples := .ofList [(⟨3⟩, { count := 7, instructions := 1 })] })] }]
      summary? := some {
        totalCount := 12, maxCount := 7, maxEntryCount := 1, numCounts := 2, numFunctions := 1
        coverage := [{ cutoff := 500000, minCount := 7, numCounts := 1 }] } } := by
    decide +kernel
  have hbound := binary_profile_is_bounded.2 _ _ _ hread rfl
  exact ⟨_, hread, rfl, rfl, by decide +kernel, by decide +kernel, by decide +kernel, hbound⟩

end Profile

end SamplingProfile
