-- Merging one store again and again. Two merges of a store, one by each of two weights, come to one
-- merge by both weights together, which for sums is their sum and for maxima the larger one. So a
-- weight says how many times a sum is repeated, and repeating a maximum changes nothing.
import Mathlib.Data.Nat.Init
import Mathlib.Logic.Function.Iterate
import SamplingProfile.Proofs.Store.MergeLaws

namespace SamplingProfile

/-! ## Joining the same thing again -/

section Again

variable {α : Type} {combine : Count → Count → Count} {take : Count → α → α}
  {join : Count → α → α → α}

/-- The laws of a thing that is joined twice, by two weights one after the other. It was as well
joined once, by the two weights together, to another thing or to nothing. -/
structure RepeatLaws (combine : Count → Count → Count) (take : Count → α → α)
    (join : Count → α → α → α) : Prop where
  join_take : ∀ u v b, join v (take u b) b = take (combine u v) b
  join_join : ∀ u v a b, join v (join u a b) b = join (combine u v) a b

theorem RepeatLaws.joinedWith? (h : RepeatLaws combine take join) (u v : Count) (a? b? : Option α) :
    joinedWith? take join v (joinedWith? take join u a? b?) b?
      = joinedWith? take join (combine u v) a? b? := by
  cases b? with
  | none => rfl
  | some b =>
    cases a? with
    | none => simp [SamplingProfile.joinedWith?, h.join_take]
    | some a => simp [SamplingProfile.joinedWith?, h.join_join]

/-- The laws hold of maps whose values are joined key by key, if a value that is new joins an empty
one. -/
theorem RepeatLaws.sortedMap {κ : Type} [Ord κ] [Std.TransOrd κ] [Std.LawfulEqOrd κ]
    (h : RepeatLaws combine take join) (zero : α) :
    RepeatLaws combine (fun weight (m : SortedMap κ α) => m.mapValues (take weight))
      (fun weight own other => own.mergeWith (fun own? new => join weight (own?.getD zero) new)
        other) where
  join_take u v m := by
    apply SortedMap.ext
    intro q
    rw [SortedMap.get?_mergeWith, SortedMap.get?_mapValues, SortedMap.get?_mapValues]
    cases m.get? q <;> simp [h.join_take]
  join_join u v m n := by
    apply SortedMap.ext
    intro q
    rw [SortedMap.get?_mergeWith, SortedMap.get?_mergeWith, SortedMap.get?_mergeWith]
    cases n.get? q <;> simp [h.join_join]

end Again

/-! ## From a count to a node -/

theorem Count.times_comm (a b : Count) : a.times b = b.times a := by
  simp [times, Nat.mul_comm]

namespace Mode

/-- The two weights are joined as counts are. -/
theorem repeatLaws (mode : Mode) :
    RepeatLaws mode.combine (fun weight count => count.times weight)
      (fun weight own new => mode.combine own (new.times weight)) := by
  have htake : ∀ u v b : Count,
      mode.combine (b.times u) (b.times v) = b.times (mode.combine u v) := by
    intro u v b
    rw [b.times_comm u, b.times_comm v, ← times_combine, Count.times_comm]
  refine ⟨htake, fun u v a b => ?_⟩
  rw [combine_assoc, htake]

theorem combine_max_self (n : Count) : Mode.max.combine n n = n := by
  apply UInt64.toNat_inj.1
  simp [combine, Count.toNat_max]

end Mode

namespace Tally

theorem repeatLaws (mode : Mode) : RepeatLaws mode.combine scale (merge mode) where
  join_take u v t := by
    have hinstructions : max t.instructions t.instructions = t.instructions :=
      Mode.combine_max_self t.instructions
    simp only [merge, scale, mode.repeatLaws.join_take, (mode.repeatLaws.sortedMap 0).join_take,
      hinstructions]
  join_join u v s t := by
    have hinstructions : max (max s.instructions t.instructions) t.instructions
        = max s.instructions t.instructions := by
      have hassoc := Mode.max.combine_assoc s.instructions t.instructions t.instructions
      rwa [Mode.combine_max_self] at hassoc
    simp only [merge, mode.repeatLaws.join_join, (mode.repeatLaws.sortedMap 0).join_join,
      hinstructions]

end Tally

namespace Body

/-- The laws of what a node holds itself. Its place in the source is found the first time or not at
all. -/
theorem repeatLaws (mode : Mode) : RepeatLaws mode.combine scale (merge mode) where
  join_take u v b := by
    simp only [merge, scale, mode.repeatLaws.join_take,
      ((Tally.repeatLaws mode).sortedMap {}).join_take]
    by_cases hb : b.file = "" ∧ b.directory = "" <;> simp [hb]
  join_join u v a b := by
    simp only [merge, mode.repeatLaws.join_join,
      ((Tally.repeatLaws mode).sortedMap {}).join_join]
    by_cases ha : a.file = "" ∧ a.directory = ""
    · by_cases hb : b.file = "" ∧ b.directory = "" <;> simp [ha, hb]
    · simp [ha]

end Body

/-! ## Stores -/

namespace Store

/-- A store that is merged into another one twice comes to what it does when it is merged once, by
the two weights together. -/
theorem mergeWeighted_again (mode : Mode) (u v : Count) (a b : Store) :
    (a.mergeWeighted mode u b).mergeWeighted mode v b
      = a.mergeWeighted mode (mode.combine u v) b := by
  apply eq_of_bodyAt?_eq
  intro name path
  simp only [bodyAt?_mergeWeighted]
  exact (Body.repeatLaws mode).joinedWith? u v _ _

/-- Sums that are repeated any number of times, the number held at the largest weight. -/
theorem iterate_merge_sum (a b : Store) {n : Nat} (hn : 1 ≤ n) :
    (fun s : Store => s.merge .sum b)^[n] a = a.mergeWeighted .sum (Count.clamp n) b := by
  induction n, hn using Nat.le_induction with
  | base => rfl
  | succ n _ ih =>
    have hweight : (Count.clamp n).plus 1 = Count.clamp (n + 1) := by
      apply UInt64.toNat_inj.1
      simp only [Count.toNat_plus, Count.toNat_clamp, UInt64.toNat_one]
      omega
    rw [Function.iterate_succ_apply', ih, merge, mergeWeighted_again, Mode.combine, hweight]

/-- A weight says how many times a store is merged when counts are added. -/
theorem weight_counts_merges {weight : Count} (h : 1 ≤ weight) (a b : Store) :
    (fun s : Store => s.merge .sum b)^[weight.toNat] a = a.mergeWeighted .sum weight b := by
  have hone : 1 ≤ weight.toNat := UInt64.le_iff_toNat_le.1 h
  rw [iterate_merge_sum a b hone, Count.clamp_toNat]

/-- A callee without a place in the source, called by a function that has one. -/
def hotCallee : Store := .ofList [{
  name := "main"
  file := "main.c"
  startLine := 4
  entryCount := 7
  callees := .ofList [(⟨⟨65536⟩, "g"⟩, {
    name := "g"
    startLine := 2
    samples := .ofList
      [(⟨0⟩, { count := 6148914691236517206, targets := .ofList [("h", 2)] })] })] }]

/-- The caller alone, without a place in the source. -/
def coldCaller : Store := .ofList [{ name := "main", startLine := 9, entryCount := 1 }]

/-- Three merges of a callee that is new the first time. Its samples pass the largest count. -/
theorem three_merges_of_hotCallee :
    (1 : Count) ≤ 3 ∧
      (fun s : Store => s.merge .sum hotCallee)^[(3 : Count).toNat] coldCaller
        = coldCaller.mergeWeighted .sum 3 hotCallee ∧
      (coldCaller.mergeWeighted .sum 3 hotCallee).sampleCounts = [18446744073709551615] ∧
      (coldCaller.mergeWeighted .sum 3 hotCallee).entryCounts = [22] := by
  have hone : (1 : Count) ≤ 3 := by decide
  exact ⟨hone, weight_counts_merges hone coldCaller hotCallee, by decide +kernel, by decide +kernel⟩

/-- When the larger of two counts stays, a store that has been merged changes nothing any more, by
the weight that it was merged by; and no store changes when it is merged into itself. -/
theorem merging_by_max_is_idempotent :
    (∀ (weight : Count) (a b : Store), (a.mergeWeighted .max weight b).mergeWeighted .max weight b
      = a.mergeWeighted .max weight b) ∧
    ∀ s : Store, s.merge .max s = s := by
  have hagain : ∀ (weight : Count) (a b : Store),
      (a.mergeWeighted .max weight b).mergeWeighted .max weight b
        = a.mergeWeighted .max weight b := by
    intro weight a b
    rw [mergeWeighted_again, Mode.combine_max_self]
  refine ⟨hagain, fun s => ?_⟩
  -- a store is what comes of merging it into the empty one
  have hself := hagain 1 ∅ s
  rwa [empty_mergeWeighted] at hself

end Store

end SamplingProfile
