-- What a list of weighted stores comes to when they are merged one after the other. Sums are
-- held at the largest count at every step, and still every count is the exact sum held at the
-- largest count once; so the order of the stores plays no part.
import Mathlib.Algebra.Ring.Nat
import SamplingProfile.Proofs.Store.Places

namespace SamplingProfile

/-- What some counts, each with its weight, come to: the exact sum held at the largest count,
or the largest of the products, each held at the largest count. -/
def Mode.closedForm : Mode → List (Count × Count) → Nat
  | .sum, parts => min Count.limit (parts.map fun p => p.1.toNat * p.2.toNat).sum
  | .max, parts => (parts.map fun p => min Count.limit (p.1.toNat * p.2.toNat)).foldl Max.max 0

/-- The counts that the stores have at a place, each with the weight of its store. -/
def CountPlace.parts (place : CountPlace) (inputs : List (Count × Store)) : List (Count × Count) :=
  inputs.filterMap fun input => (input.2.countAt? place).map fun count => (input.1, count)

/-! ## One step -/

theorem Mode.closedForm_append (mode : Mode) (parts : List (Count × Count)) (weight new : Count) :
    mode.closedForm (parts ++ [(weight, new)])
      = match mode with
        | .sum => min Count.limit (mode.closedForm parts + (new.times weight).toNat)
        | .max => Max.max (mode.closedForm parts) (new.times weight).toNat := by
  have hnew := Count.toNat_times new weight
  rw [Nat.mul_comm] at hnew
  cases mode with
  | sum =>
    simp only [closedForm, List.map_append, List.map_cons, List.map_nil, List.sum_append,
      List.sum_cons, List.sum_nil, hnew]
    omega
  | max =>
    simp only [closedForm, List.map_append, List.map_cons, List.map_nil, List.foldl_append,
      List.foldl_cons, List.foldl_nil, hnew, Nat.min_comm Count.limit]

/-- The count at a place after the stores that gave `parts`: none if there are no parts. -/
def Mode.Gathered (mode : Mode) (parts : List (Count × Count)) : Option Count → Prop
  | none => parts = []
  | some count => parts ≠ [] ∧ count.toNat = mode.closedForm parts

theorem Mode.Gathered.step {mode : Mode} {parts : List (Count × Count)} {own? : Option Count}
    (h : mode.Gathered parts own?) (weight : Count) (new? : Option Count) :
    mode.Gathered (parts ++ (new?.map fun new => (weight, new)).toList)
      (mode.step weight own? new?) := by
  cases new? with
  | none =>
    rw [Option.map_none, Option.toList_none, List.append_nil]
    exact h
  | some new =>
    rw [Option.map_some, Option.toList_some, Mode.step_some]
    refine ⟨by simp, ?_⟩
    have hown : (own?.getD 0).toNat = mode.closedForm parts := by
      cases own? with
      | none =>
        have hp : parts = [] := h
        subst hp
        cases mode <;> rfl
      | some own => exact h.2
    rw [closedForm_append, ← hown]
    cases mode with
    | sum => rw [combine, Count.toNat_plus, Nat.min_comm]
    | max => rw [combine, Count.toNat_max]

/-! ## The whole list -/

theorem Mode.Gathered.foldl {mode : Mode} {parts : List (Count × Count)} {own? : Option Count}
    (h : mode.Gathered parts own?) (news : List (Count × Option Count)) :
    mode.Gathered
      (parts ++ news.filterMap fun n => n.2.map fun new => (n.1, new))
      (news.foldl (fun own? n => mode.step n.1 own? n.2) own?) := by
  induction news generalizing parts own? with
  | nil =>
    rw [List.filterMap_nil, List.append_nil]
    exact h
  | cons n news ih =>
    have hstep := ih (h.step n.1 n.2)
    rw [List.append_assoc] at hstep
    rw [List.foldl_cons, List.filterMap_cons]
    cases hn : n.2 with
    | none => simpa [hn] using hstep
    | some new => simpa [hn] using hstep

/-- What one merge does to a view of the store by one step, merging a list of stores does by
gathering what they have in that view. -/
theorem Store.gathered_mergeAll {mode viewMode : Mode} (weigh : Count → Count)
    (view : Store → Option Count) (hempty : view ∅ = none)
    (hstep : ∀ weight s other, view (mergeWeighted mode weight s other)
      = viewMode.step (weigh weight) (view s) (view other))
    (inputs : List (Count × Store)) :
    viewMode.Gathered
      (inputs.filterMap fun input => (view input.2).map fun count => (weigh input.1, count))
      (view (mergeAll mode inputs)) := by
  have hfold : ∀ (inputs : List (Count × Store)) (s : Store),
      view (inputs.foldl (fun s input => s.mergeWeighted mode input.1 input.2) s)
        = (inputs.map fun input => (weigh input.1, view input.2)).foldl
            (fun own? n => viewMode.step n.1 own? n.2) (view s) := by
    intro inputs
    induction inputs with
    | nil => intro s; rfl
    | cons input inputs ih =>
      intro s
      rw [List.foldl_cons, ih, hstep, List.map_cons, List.foldl_cons]
  have hnone : viewMode.Gathered [] none := rfl
  have h := hnone.foldl (inputs.map fun input => (weigh input.1, view input.2))
  rw [List.filterMap_map, List.nil_append] at h
  rw [mergeAll, hfold, hempty]
  exact h

/-- At every place the merged store has gathered the counts of the stores. -/
theorem Store.gathered_countAt? (mode : Mode) (inputs : List (Count × Store)) (place : CountPlace) :
    mode.Gathered (place.parts inputs) ((mergeAll mode inputs).countAt? place) :=
  gathered_mergeAll id (·.countAt? place) (countAt?_empty place)
    (fun weight s other => countAt?_mergeWeighted mode weight s other place) inputs

theorem Store.gathered_instructionsAt? (mode : Mode) (inputs : List (Count × Store))
    (name : String) (path : List Callsite) (location : Location) :
    Mode.max.Gathered
      (inputs.filterMap fun input =>
        (input.2.instructionsAt? name path location).map fun n => (1, n))
      ((mergeAll mode inputs).instructionsAt? name path location) :=
  gathered_mergeAll (fun _ => 1) (·.instructionsAt? name path location) rfl
    (fun weight s other => instructionsAt?_mergeWeighted mode weight s other name path location)
    inputs

theorem Mode.Gathered.isSome_iff {mode : Mode} {parts : List (Count × Count)}
    {own? : Option Count} (h : mode.Gathered parts own?) : own?.isSome ↔ parts ≠ [] := by
  cases own? with
  | none =>
    have hnil : parts = [] := h
    simp [hnil]
  | some count =>
    have hne : parts ≠ [] := h.1
    simp [hne]

theorem CountPlace.parts_ne_nil_iff (place : CountPlace) (inputs : List (Count × Store)) :
    place.parts inputs ≠ [] ↔ ∃ input ∈ inputs, (input.2.countAt? place).isSome := by
  unfold parts
  rw [Ne, List.filterMap_eq_nil_iff]
  simp [Option.isSome_iff_ne_none]

theorem closedForm_instructions (ns : List Count) :
    Mode.max.closedForm (ns.map fun n => (1, n)) = (ns.map UInt64.toNat).foldl max 0 := by
  have hone : ∀ n : Count, min Count.limit ((1 : Count).toNat * n.toNat) = n.toNat := by
    intro n
    have := n.toNat_le_limit
    rw [UInt64.toNat_one, Nat.one_mul]
    omega
  simp only [Mode.closedForm, List.map_map, Function.comp_def, hone]

/-! ## The order of the list -/

theorem foldl_max_of_perm {xs ys : List Nat} (h : xs.Perm ys) :
    xs.foldl max 0 = ys.foldl max 0 :=
  h.foldl_eq' (fun x _ y _ z => by omega) 0

theorem Mode.closedForm_of_perm (mode : Mode) {parts parts' : List (Count × Count)}
    (h : parts.Perm parts') : mode.closedForm parts = mode.closedForm parts' := by
  cases mode with
  | sum =>
    rw [closedForm, closedForm, (h.map fun p => p.1.toNat * p.2.toNat).sum_nat]
  | max =>
    rw [closedForm, closedForm]
    exact foldl_max_of_perm (h.map _)

theorem Mode.Gathered.eq_of_perm {mode : Mode} {parts parts' : List (Count × Count)}
    {own? own?' : Option Count} (h : mode.Gathered parts own?) (h' : mode.Gathered parts' own?')
    (hp : parts.Perm parts') : own? = own?' := by
  cases own? with
  | none =>
    have hnil : parts = [] := h
    subst hnil
    cases own?' with
    | none => rfl
    | some c => exact absurd hp.nil_eq.symm h'.1
  | some c =>
    cases own?' with
    | none =>
      have hnil : parts' = [] := h'
      subst hnil
      exact absurd hp.eq_nil h.1
    | some c' =>
      have hcount : c.toNat = c'.toNat := by rw [h.2, h'.2, mode.closedForm_of_perm hp]
      rw [UInt64.toNat_inj.1 hcount]

/-! ## The closed form -/

namespace Store

/-- Stores merged one after the other, each with a weight. The places of the result are those of
the stores. At each of them the count is the exact sum of the products of weight and count, held
at the largest count, or the largest of the products, each held there. Of the numbers of
instructions the largest stays. The order of the stores plays no part. -/
theorem mergeAll_closed_form (mode : Mode) (inputs : List (Count × Store)) :
    (∀ place, ((mergeAll mode inputs).countAt? place).isSome ↔
      ∃ input ∈ inputs, (input.2.countAt? place).isSome) ∧
    (∀ place count, (mergeAll mode inputs).countAt? place = some count →
      count.toNat = mode.closedForm (place.parts inputs)) ∧
    (∀ name path location n,
      (mergeAll mode inputs).instructionsAt? name path location = some n →
        n.toNat = ((inputs.filterMap fun input =>
          input.2.instructionsAt? name path location).map UInt64.toNat).foldl max 0) ∧
    ∀ inputs', inputs.Perm inputs' →
      (∀ place, (mergeAll mode inputs').countAt? place = (mergeAll mode inputs).countAt? place) ∧
      ∀ name path location, (mergeAll mode inputs').instructionsAt? name path location
        = (mergeAll mode inputs).instructionsAt? name path location := by
  refine ⟨fun place => ?_, fun place count h => ?_, fun name path location n h => ?_,
    fun inputs' hp => ⟨fun place => ?_, fun name path location => ?_⟩⟩
  · rw [(gathered_countAt? mode inputs place).isSome_iff, CountPlace.parts_ne_nil_iff]
  · have hg := gathered_countAt? mode inputs place
    rw [h] at hg
    exact hg.2
  · have hg := gathered_instructionsAt? mode inputs name path location
    rw [h] at hg
    rw [← closedForm_instructions, List.map_filterMap]
    exact hg.2
  · exact (gathered_countAt? mode inputs' place).eq_of_perm
      (gathered_countAt? mode inputs place) (hp.symm.filterMap _)
  · exact (gathered_instructionsAt? mode inputs' name path location).eq_of_perm
      (gathered_instructionsAt? mode inputs name path location) (hp.symm.filterMap _)

end Store

end SamplingProfile
