-- What comes of building a summary. The sum of all counts is looked at first, then the cutoffs in
-- their order; if neither stands in the way, the totals are those of the counts that were added.
import SamplingProfile.Proofs.Summary.Builder

namespace SamplingProfile

/-! ## Reasons -/

namespace Summary

variable {counts entryCounts : List Count} {cutoffs : List UInt32}

theorem ofCounts_eq_countOverflow_iff :
    ofCounts counts entryCounts cutoffs = .error .countOverflow ↔
      Count.limit < Count.exactSum counts := by
  unfold ofCounts
  split
  · rename_i hover
    simpa using hover
  · rename_i hfits
    split <;> simp [hfits]

/-- A cutoff is the reason if it is the first that asks for more than all, and the sum fits. -/
theorem ofCounts_eq_invalidCutoff_iff {bad : UInt32} :
    ofCounts counts entryCounts cutoffs = .error (.invalidCutoff bad) ↔
      Count.exactSum counts ≤ Count.limit ∧
        ∃ before after, cutoffs = before ++ bad :: after ∧ cutoffScale < bad.toNat ∧
          ∀ cutoff ∈ before, cutoff.toNat ≤ cutoffScale := by
  have hfirst : cutoffs.find? (fun c => cutoffScale < c.toNat) = some bad ↔
      ∃ before after, cutoffs = before ++ bad :: after ∧ cutoffScale < bad.toNat ∧
        ∀ cutoff ∈ before, cutoff.toNat ≤ cutoffScale := by
    rw [List.find?_eq_some_iff_append]
    simp only [decide_eq_true_eq, Bool.not_eq_true', decide_eq_false_iff_not, Nat.not_lt]
    constructor
    · rintro ⟨hbad, before, after, heq, hbefore⟩
      exact ⟨before, after, heq, hbad, hbefore⟩
    · rintro ⟨before, after, heq, hbad, hbefore⟩
      exact ⟨hbad, before, after, heq, hbefore⟩
  rw [← hfirst]
  unfold ofCounts
  split
  · rename_i hover
    simp [Nat.not_le.2 hover]
  · rename_i hfits
    rw [and_iff_right (Nat.le_of_not_lt hfits)]
    cases cutoffs.find? (fun c => cutoffScale < c.toNat) <;> simp

end Summary

/-! ## Outcomes -/

namespace SummaryBuilder

/-- A builder that was called in any order fails for an overflow if the exact sum of all counts
passes 64 bits, whatever the cutoffs are; otherwise it fails for the first cutoff that asks for more
than all, if there is one; and otherwise there is a summary, with the exact sum, the largest count
or 0 if there is none, and the numbers of the two kinds of calls. -/
theorem outcome_of_build (calls : List Call) (cutoffs : List UInt32) :
    ((ofCalls calls).build cutoffs = .error .countOverflow ↔
      UInt64.size ≤ Count.exactSum (calls.filterMap Call.count?)) ∧
    (∀ bad, (ofCalls calls).build cutoffs = .error (.invalidCutoff bad) ↔
      Count.exactSum (calls.filterMap Call.count?) < UInt64.size ∧
        ∃ before after, cutoffs = before ++ bad :: after ∧ cutoffScale < bad.toNat ∧
          ∀ cutoff ∈ before, cutoff.toNat ≤ cutoffScale) ∧
    ((∃ x, (ofCalls calls).build cutoffs = .ok x ∧
        x.totalCount.toNat = Count.exactSum (calls.filterMap Call.count?) ∧
        x.maxCount ∈ 0 :: calls.filterMap Call.count? ∧
        (∀ n ∈ calls.filterMap Call.count?, n ≤ x.maxCount) ∧
        x.numCounts = (calls.filterMap Call.count?).length ∧
        x.numFunctions = (calls.filterMap Call.entryCount?).length) ↔
      Count.exactSum (calls.filterMap Call.count?) < UInt64.size ∧
        ∀ cutoff ∈ cutoffs, cutoff.toNat ≤ cutoffScale) := by
  have hbuild := (holds_ofCalls calls).build_eq cutoffs
  have hsize : UInt64.size = Count.limit + 1 := rfl
  rw [hbuild, hsize, Nat.succ_le_iff, Nat.lt_succ_iff]
  refine ⟨Summary.ofCounts_eq_countOverflow_iff,
    fun bad => Summary.ofCounts_eq_invalidCutoff_iff, ?_, ?_⟩
  · rintro ⟨x, hx, -⟩
    have hof := Summary.isOf_of_ofCounts hx
    exact ⟨hof.fits, hof.valid⟩
  · rintro ⟨hfits, hvalid⟩
    obtain ⟨x, hx, -⟩ := Summary.ofCounts_of_fits (calls.filterMap Call.entryCount?) hfits hvalid
    have hof := Summary.isOf_of_ofCounts hx
    refine ⟨x, hx, hof.totalCount, ?_, ?_, hof.numCounts, hof.numFunctions⟩
    · rw [hof.maxCount]
      exact Count.largest_mem _
    · rw [hof.maxCount]
      exact Count.le_largest _

-- an overflow is for good, and it comes before a cutoff that asks for too much
example : (ofCalls [.count 0xffffffffffffffff, .count 1, .function 2, .count 0]).build [2000000]
    = .error .countOverflow := by decide

end SummaryBuilder

end SamplingProfile
