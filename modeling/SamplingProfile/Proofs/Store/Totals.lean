-- What the samples of a function come to after a merge by sums. Every sum is held at the largest
-- count, at each location and again while the locations are added up; and still the total of the
-- merged tree is the total of the one with the weighted total of the other.
import SamplingProfile.Proofs.Store.Bodies
import SamplingProfile.Proofs.Store.MergeLaws

namespace SamplingProfile

/-! ## Sums held at the largest count -/

namespace Count

theorem zero_plus (a : Count) : (0 : Count).plus a = a := Mode.sum.combine_zero a

theorem plus_comm (a b : Count) : a.plus b = b.plus a := by
  rw [plus, plus, Nat.add_comm]

theorem plus_assoc (a b c : Count) : (a.plus b).plus c = a.plus (b.plus c) :=
  Mode.sum.combine_assoc a b c

theorem plus_zero (a : Count) : a.plus 0 = a := by
  rw [plus_comm, zero_plus]

theorem zero_times (weight : Count) : (0 : Count).times weight = 0 := by
  simp [times, clamp]

instance : Std.Commutative plus := ⟨plus_comm⟩
instance : Std.Associative plus := ⟨plus_assoc⟩

theorem total_cons (count : Count) (counts : List Count) :
    total (count :: counts) = count.plus (total counts) := by
  rw [total, List.foldl_cons, plus_comm, List.foldl_assoc]
  rfl

theorem total_append (counts counts' : List Count) :
    total (counts ++ counts') = (total counts).plus (total counts') := by
  induction counts with
  | nil => exact (zero_plus _).symm
  | cons count counts ih => rw [List.cons_append, total_cons, total_cons, ih, plus_assoc]

theorem total_map_times (counts : List Count) (weight : Count) :
    total (counts.map (·.times weight)) = (total counts).times weight := by
  induction counts with
  | nil => exact (zero_times weight).symm
  | cons count counts ih => rw [List.map_cons, total_cons, total_cons, ih, times_plus]

theorem total_map_toList {α : Type} (worth : α → Count) (a? : Option α) :
    total (a?.toList.map worth) = a?.elim 0 worth := by
  cases a? with
  | none => rfl
  | some a => exact (total_cons (worth a) []).trans (plus_zero (worth a))

end Count

/-! ## Maps -/

namespace SortedMap

variable {κ α β : Type} [Ord κ] {worth : α → Count}

/-- What the values of a map are worth together. -/
def totalBy (worth : α → Count) (m : SortedMap κ α) : Count := Count.total (m.values.map worth)

variable [Std.TransOrd κ] [Std.LawfulEqOrd κ]

/-- What is put under a key adds to the total what it adds to the value that was there. -/
theorem totalBy_insert {m : SortedMap κ α} {key : κ} {value : α} {more : Count}
    (h : worth value = ((m.get? key).elim 0 worth).plus more) :
    (m.insert key value).totalBy worth = (m.totalBy worth).plus more := by
  obtain ⟨front, back, hnew, hold⟩ := m.values_insert key value
  simp only [totalBy, hnew, hold, List.map_append, List.map_cons, Count.total_append,
    Count.total_cons, Count.total_map_toList, h]
  ac_rfl

/-- Where each new value adds its own worth, the map that is joined adds its total. -/
theorem totalBy_mergeWith {newWorth : β → Count} {join : Option α → β → α}
    (h : ∀ own? new, worth (join own? new) = (own?.elim 0 worth).plus (newWorth new))
    (m : SortedMap κ α) (other : SortedMap κ β) :
    (m.mergeWith join other).totalBy worth = (m.totalBy worth).plus (other.totalBy newWorth) := by
  have hstep : ∀ (m : SortedMap κ α) (e : κ × β),
      (m.update e.1 fun own? => join own? e.2).totalBy worth
        = (m.totalBy worth).plus (newWorth e.2) :=
    fun m e => totalBy_insert (h (m.get? e.1) e.2)
  have hrun : ∀ (entries : List (κ × β)) (m : SortedMap κ α),
      (entries.foldl (fun m e => m.update e.1 fun own? => join own? e.2) m).totalBy worth
        = (m.totalBy worth).plus (Count.total (entries.map fun e => newWorth e.2)) := by
    intro entries
    induction entries with
    | nil => exact fun m => (Count.plus_zero _).symm
    | cons e rest ih =>
      intro m
      rw [List.foldl_cons, ih, hstep, List.map_cons, Count.total_cons, Count.plus_assoc]
  rw [mergeWith, hrun, totalBy, totalBy, values, values, List.map_map, List.map_map]
  rfl

end SortedMap

/-! ## Trees -/

namespace Body

/-- The samples of a node itself, without its callees. -/
def ownTotal (b : Body) : Count := Count.total b.counts

theorem ownTotal_merge (weight : Count) (own other : Body) :
    (own.merge .sum weight other).ownTotal
      = own.ownTotal.plus (other.ownTotal.times weight) := by
  have hother : other.samples.totalBy (fun tally => tally.count.times weight)
      = other.ownTotal.times weight := by
    rw [ownTotal, counts, ← Count.total_map_times, List.map_map]
    rfl
  rw [← hother]
  refine SortedMap.totalBy_mergeWith (fun own? new => ?_) own.samples other.samples
  cases own? <;> rfl

theorem counts_scale (weight : Count) (b : Body) :
    (b.scale weight).counts = b.counts.map (·.times weight) := by
  simp [counts, scale, SortedMap.values, SortedMap.mapValues, Tally.scale, Function.comp_def]

end Body

namespace Forest

/-- The samples of all nodes. -/
def total (f : Forest) : Count := Count.total f.counts

theorem counts_scale (weight : Count) (f : Forest) :
    (f.scale weight).counts = f.counts.map (·.times weight) := by
  induction f with
  | nil => rfl
  | cons site body inner rest ih ih' =>
    simp only [scale, counts, List.map_append, body.counts_scale, ih, ih']

theorem totalWith_eq (inner : Forest) (body : Body) :
    inner.totalWith body = body.ownTotal.plus inner.total :=
  Count.total_append _ _

theorem total_cons (site : Callsite) (body : Body) (inner rest : Forest) :
    (cons site body inner rest).total = (inner.totalWith body).plus rest.total := by
  rw [total, counts, ← List.append_assoc, Count.total_append]
  rfl

end Forest

/-- A callee that is put below a callsite adds what it adds to the callee that was there. -/
theorem Callees.total_insert {c : Callees} {site : Callsite} {callee : FunctionProfile}
    {more : Count}
    (h : callee.totalCount = ((c.get? site).elim 0 FunctionProfile.totalCount).plus more) :
    (c.insert site callee).forest.total = c.forest.total.plus more := by
  obtain ⟨front, back, hnew, hold⟩ := c.bodies_insert site callee
  have hcount : ∀ f : FunctionProfile,
      Count.total (f.bodies.flatMap Body.counts) = f.totalCount := by
    intro f
    rw [← FunctionProfile.counts_eq_flatMap, FunctionProfile.totalCount,
      FunctionProfile.sampleCounts_eq_counts]
  have hgone : Count.total (((c.get? site).elim [] FunctionProfile.bodies).flatMap Body.counts)
      = (c.get? site).elim 0 FunctionProfile.totalCount := by
    cases c.get? site with
    | none => rfl
    | some f => exact hcount f
  simp only [Forest.total, Forest.counts_eq_flatMap, hnew, hold, List.flatMap_append,
    Count.total_append, hcount, hgone, h]
  ac_rfl

namespace FunctionProfile

theorem totalCount_eq (f : FunctionProfile) :
    f.totalCount = f.toBody.ownTotal.plus f.callees.forest.total := by
  rw [totalCount_eq_totalWith, Forest.totalWith_eq]

theorem totalCount_weighted (weight : Count) (f : FunctionProfile) :
    (f.weighted weight).totalCount = f.totalCount.times weight := by
  unfold weighted
  split
  · rename_i hone
    rw [hone, Count.times_one]
  · rw [totalCount_eq_totalWith, totalCount_eq_totalWith, Forest.totalWith, Forest.totalWith,
      ← Count.total_map_times, List.map_append, ← Body.counts_scale, ← Forest.counts_scale]
    rfl

end FunctionProfile

/-- Callees that are joined add their total. -/
theorem Forest.total_mergeInto (weight : Count) {other : Forest} (h : other.Ordered)
    (own : Callees) :
    (other.mergeInto .sum weight h own).forest.total
      = own.forest.total.plus (other.total.times weight) := by
  induction other generalizing own with
  | nil =>
    have hnothing : (nil.total).times weight = 0 := Count.zero_times weight
    rw [hnothing, Count.plus_zero]
    rfl
  | cons site body inner rest ih ih' =>
    show (rest.mergeInto .sum weight h.2.2 (own.insert site _)).forest.total = _
    rw [ih' h.2.2, total_cons, Count.times_plus, ← Count.plus_assoc]
    congr 1
    apply Callees.total_insert
    cases own.get? site with
    | none =>
      rw [Option.elim, Count.zero_plus, FunctionProfile.totalCount_weighted,
        FunctionProfile.totalCount_eq_totalWith]
    | some f =>
      simp only [Option.elim, FunctionProfile.totalCount_eq, totalWith_eq, Body.ownTotal_merge,
        ih h.2.1 f.callees, Count.times_plus]
      ac_rfl

theorem FunctionProfile.totalCount_merge (weight : Count) (own other : FunctionProfile) :
    (own.merge .sum weight other).totalCount
      = own.totalCount.plus (other.totalCount.times weight) := by
  simp only [totalCount_eq, merge, Body.ownTotal_merge, Forest.total_mergeInto, Count.times_plus]
  ac_rfl

/-! ## Stores -/

namespace Store

/-- The samples of a function and its callees, 0 if the store does not have the function. -/
def totalOf (s : Store) (name : String) : Count :=
  (s.get? name).elim 0 FunctionProfile.totalCount

theorem totalOf_mergeWeighted (weight : Count) (s other : Store) (name : String) :
    (s.mergeWeighted .sum weight other).totalOf name
      = (s.totalOf name).plus ((other.totalOf name).times weight) := by
  unfold totalOf
  rw [get?_mergeWeighted]
  cases other.get? name with
  | none =>
    rw [Option.elim_none, Count.zero_times, Count.plus_zero]
    rfl
  | some f =>
    cases s.get? name with
    | none =>
      rw [Option.elim_none, Count.zero_plus]
      exact FunctionProfile.totalCount_weighted weight f
    | some own => exact FunctionProfile.totalCount_merge weight own f

theorem totalOf_foldl (inputs : List (Count × Store)) (s : Store) (name : String) :
    (inputs.foldl (fun s input => s.mergeWeighted .sum input.1 input.2) s).totalOf name
      = (s.totalOf name).plus
          (Count.total (inputs.map fun input => (input.2.totalOf name).times input.1)) := by
  induction inputs generalizing s with
  | nil => exact (Count.plus_zero _).symm
  | cons input inputs ih =>
    rw [List.foldl_cons, ih, totalOf_mergeWeighted, List.map_cons, Count.total_cons,
      Count.plus_assoc]

/-- When counts are added, the totals of a function add up, the total in the store that is joined
taken as often as its weight says, whatever callees the two trees share and wherever a sum is held
at the largest count. So the total after any number of merges is the sum of those totals. -/
theorem totals_add_up :
    (∀ (a b : Store) (weight : Count) (name : String),
      (a.mergeWeighted .sum weight b).totalOf name
        = (a.totalOf name).plus ((b.totalOf name).times weight)) ∧
    ∀ (inputs : List (Count × Store)) (name : String),
      (mergeAll .sum inputs).totalOf name
        = Count.total (inputs.map fun input => (input.2.totalOf name).times input.1) := by
  refine ⟨fun a b weight name => totalOf_mergeWeighted weight a b name, fun inputs name => ?_⟩
  rw [mergeAll, totalOf_foldl]
  exact Count.zero_plus _

end Store

end SamplingProfile
