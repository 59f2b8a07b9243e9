-- Merging stores: the functions of the second one are joined to the first, one after the
-- other in the order of their names.
import SamplingProfile.Store.Basic
import SamplingProfile.FunctionProfile.Merge

namespace SamplingProfile

namespace Store

/-- Joins one function, each of its counts taken `weight` times. -/
def mergeFunction (mode : Mode) (weight : Count) (s : Store) (f : FunctionProfile) : Store :=
  match s.get? f.name with
  | none => s.insert (f.weighted weight)
  | some own => s.insert (own.merge mode weight f)

/-- Joins every function of `other`, each of its counts taken `weight` times. -/
def mergeWeighted (mode : Mode) (weight : Count) (s other : Store) : Store :=
  other.toList.foldl (mergeFunction mode weight) s

/-- Joins every function of `other` as it is. -/
def merge (mode : Mode) (s other : Store) : Store := mergeWeighted mode 1 s other

/-- Joins a list of stores, each with its weight, to the empty store. -/
def mergeAll (mode : Mode) (inputs : List (Count × Store)) : Store :=
  inputs.foldl (fun s input => s.mergeWeighted mode input.1 input.2) ∅

/-! ## What is found under a name afterwards -/

theorem get?_mergeFunction (mode : Mode) (weight : Count) (s : Store) (f : FunctionProfile)
    (name : String) :
    (s.mergeFunction mode weight f).get? name
      = if name = f.name then FunctionProfile.joined? mode weight (s.get? name) (some f)
        else s.get? name := by
  unfold mergeFunction
  cases hs : s.get? f.name with
  | none =>
    simp only [get?_insert, FunctionProfile.name_weighted]
    split
    · rename_i h
      rw [h, hs]
      rfl
    · rfl
  | some own =>
    have hw : (own.merge mode weight f).name = f.name := by
      rw [FunctionProfile.name_merge, name_of_get? hs]
    simp only [get?_insert, hw]
    split
    · rename_i h
      rw [h, hs]
      rfl
    · rfl

/-- A function of the store that was joined is joined itself, or comes as it is when there
was none of its name; any other function stays. -/
theorem get?_mergeWeighted (mode : Mode) (weight : Count) (s other : Store) (name : String) :
    (s.mergeWeighted mode weight other).get? name
      = FunctionProfile.joined? mode weight (s.get? name) (other.get? name) := by
  have key : ∀ (entries : List (String × FunctionProfile)) (t : Store),
      (entries.Pairwise fun a b => compare a.1 b.1 = .lt) → (∀ e ∈ entries, e.2.name = e.1) →
      ((entries.map Prod.snd).foldl (mergeFunction mode weight) t).get? name
        = FunctionProfile.joined? mode weight (t.get? name)
            (SortedMap.valueAt? name entries) := by
    intro entries
    induction entries with
    | nil => intro t _ _; rfl
    | cons e rest ih =>
      intro t hs hn
      obtain ⟨hlow, hrest⟩ := List.pairwise_cons.1 hs
      have hn' : ∀ e' ∈ rest, e'.2.name = e'.1 := fun e' he' => hn e' (List.mem_cons_of_mem _ he')
      rw [List.map_cons, List.foldl_cons, ih _ hrest hn', get?_mergeFunction,
        hn e List.mem_cons_self]
      cases hc : compare name e.1 with
      | lt =>
        have hq : name ≠ e.1 := fun he => by simp [he] at hc
        have hnone : SortedMap.valueAt? name rest = none :=
          SortedMap.valueAt?_eq_none_of_lt fun e' he' =>
            Std.TransCmp.lt_trans hc (hlow e' he')
        simp [SortedMap.valueAt?, hc, hnone, hq]
      | eq =>
        have hq := Std.compare_eq_iff_eq.1 hc
        have hnone : SortedMap.valueAt? name rest = none :=
          SortedMap.valueAt?_eq_none_of_lt fun e' he' => by rw [hq]; exact hlow e' he'
        simp only [SortedMap.valueAt?, hc, hnone, if_pos hq]
        cases t.get? name <;> rfl
      | gt =>
        have hq : name ≠ e.1 := fun he => by simp [he] at hc
        simp [SortedMap.valueAt?, hc, hq]
  exact key other.functions.entries s other.functions.sorted other.named

end Store

end SamplingProfile
