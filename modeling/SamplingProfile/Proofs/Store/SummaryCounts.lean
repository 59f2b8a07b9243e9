-- The summary of a store is made of its sample counts and of the entry counts of its functions;
-- and no cutoff is covered by more counts than there are.
import SamplingProfile.Proofs.Summary.Threshold
import SamplingProfile.Store.Summary

namespace SamplingProfile

/-! ## Building -/

namespace SummaryBuilder

variable {b : SummaryBuilder} {counts entryCounts : List Count}

/-- A function brings its own entry count, and the sample counts of all its nodes. -/
theorem Holds.addProfile (h : b.Holds counts entryCounts) (f : FunctionProfile) :
    (b.addProfile f).Holds (counts ++ f.sampleCounts) (entryCounts ++ [f.entryCount]) :=
  (h.addFunction f.entryCount).foldl_addCount f.sampleCounts

theorem Holds.foldl_addProfile (h : b.Holds counts entryCounts) (fs : List FunctionProfile) :
    (fs.foldl SummaryBuilder.addProfile b).Holds
      (counts ++ fs.flatMap FunctionProfile.sampleCounts)
      (entryCounts ++ fs.map (·.entryCount)) := by
  induction fs generalizing b counts entryCounts with
  | nil => simpa using h
  | cons f fs ih => simpa using ih (h.addProfile f)

end SummaryBuilder

theorem Summary.ofCounts_eq_ok {counts entryCounts : List Count} {cutoffs : List UInt32}
    {x : Summary} (h : ofCounts counts entryCounts cutoffs = .ok x) :
    x.maxEntryCount = Count.largest entryCounts ∧ x.numCounts = counts.length ∧
      x.numFunctions = entryCounts.length ∧ ∀ c ∈ x.coverage, c.numCounts ≤ counts.length := by
  have hx := isOf_of_ofCounts h
  refine ⟨hx.maxEntryCount, hx.numCounts, hx.numFunctions, fun e he => ?_⟩
  rw [← hx.numCounts]
  exact (hx.within he).1

/-! ## The summary of a store -/

namespace Store

theorem length_toList (s : Store) : s.toList.length = s.size := List.length_map ..

/-- The sample counts of the nodes of all functions. -/
theorem sampleCounts_eq (s : Store) :
    s.sampleCounts = s.toList.flatMap FunctionProfile.counts := by
  have hcounts : FunctionProfile.sampleCounts = FunctionProfile.counts :=
    funext FunctionProfile.sampleCounts_eq_counts
  rw [sampleCounts, hcounts]

/-- The functions are looked at for their counts alone. -/
theorem summary_eq (s : Store) (cutoffs : List UInt32) :
    s.summary cutoffs = Summary.ofCounts s.sampleCounts s.entryCounts cutoffs := by
  have h := SummaryBuilder.holds_new.foldl_addProfile s.toList
  rw [List.nil_append, List.nil_append] at h
  exact h.build_eq cutoffs

theorem summary_eq_ok {s : Store} {cutoffs : List UInt32} {x : Summary}
    (h : s.summary cutoffs = .ok x) :
    x.numCounts = s.sampleCounts.length ∧ x.numFunctions = s.size ∧
      ∀ c ∈ x.coverage, c.numCounts ≤ s.sampleCounts.length := by
  rw [summary_eq] at h
  rcases Summary.ofCounts_eq_ok h with ⟨-, hcounts, hfunctions, hcoverage⟩
  have hlength : s.entryCounts.length = s.size := (List.length_map ..).trans s.length_toList
  exact ⟨hcounts, hfunctions.trans hlength, hcoverage⟩

end Store

end SamplingProfile
