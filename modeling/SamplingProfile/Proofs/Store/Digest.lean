-- Which parts of a store its summary depends on. Where the counts stand, in which function, at
-- which depth and under which names, plays no part, and neither does the order in which they are
-- added; and the largest entry count is all that is said of the entry counts.
import SamplingProfile.Proofs.Store.SummaryCounts

namespace SamplingProfile

/-- What a summary says of the sample counts. -/
def Summary.digest (x : Summary) : Count × Count × Nat × List Coverage :=
  (x.totalCount, x.maxCount, x.numCounts, x.coverage)

/-- Entry counts play no part in what a summary says of the sample counts, or in whether there is
one. -/
theorem Summary.digest_ofCounts (counts entryCounts entryCounts' : List Count)
    (cutoffs : List UInt32) :
    (ofCounts counts entryCounts cutoffs).map digest
      = (ofCounts counts entryCounts' cutoffs).map digest := by
  unfold ofCounts
  split
  · rfl
  · split <;> rfl

/-- Stores with the same sample counts, each as often in the one as in the other, have the same
error or summaries that say the same of the counts. Of the functions a summary says how many they
are and what their largest entry count is, 0 if there are none. And a builder gives the same for
the same calls in any order, whether and where the sum overflows on the way. -/
theorem summary_depends_on_counts :
    (∀ s s' : Store,
      (s.toList.flatMap FunctionProfile.counts).Perm (s'.toList.flatMap FunctionProfile.counts) →
      ∀ cutoffs, (s.summary cutoffs).map Summary.digest = (s'.summary cutoffs).map Summary.digest) ∧
    (∀ (s : Store) cutoffs x, s.summary cutoffs = .ok x →
      x.numFunctions = s.size ∧ x.maxEntryCount ∈ 0 :: s.entryCounts ∧
        ∀ n ∈ s.entryCounts, n ≤ x.maxEntryCount) ∧
    ∀ calls calls' : List SummaryBuilder.Call, calls.Perm calls' →
      ∀ cutoffs, (SummaryBuilder.ofCalls calls).build cutoffs
        = (SummaryBuilder.ofCalls calls').build cutoffs := by
  refine ⟨fun s s' hperm cutoffs => ?_, fun s cutoffs x h => ?_,
    fun calls calls' hperm cutoffs => ?_⟩
  · rw [← Store.sampleCounts_eq, ← Store.sampleCounts_eq] at hperm
    rw [Store.summary_eq, Store.summary_eq, Summary.ofCounts_of_perm hperm (.refl s.entryCounts)]
    exact Summary.digest_ofCounts _ _ _ cutoffs
  · obtain ⟨-, hfunctions, -⟩ := Store.summary_eq_ok h
    rw [Store.summary_eq] at h
    obtain ⟨hmax, -⟩ := Summary.ofCounts_eq_ok h
    rw [hmax]
    exact ⟨hfunctions, Count.foldl_max_mem _ 0, (Count.le_foldl_max _ 0).2⟩
  · rw [(SummaryBuilder.holds_ofCalls calls).build_eq,
      (SummaryBuilder.holds_ofCalls calls').build_eq]
    exact Summary.ofCounts_of_perm (hperm.filterMap _) (hperm.filterMap _) cutoffs

/-- Two functions, one of them with two locations. -/
def besideEachOther : Store := .ofList [
  { name := "a", entryCount := 9
    samples := .ofList [(⟨1⟩, { count := 5 }), (⟨2⟩, { count := 3 })] },
  { name := "b", samples := .ofList [(⟨1⟩, { count := 3 })] }]

/-- One function with the same counts on three levels. -/
def belowEachOther : Store := .ofList [{
  name := "c", samples := .ofList [(⟨7⟩, { count := 3 })]
  callees := .ofList [(⟨⟨1⟩, "d"⟩, {
    name := "d", samples := .ofList [(⟨1⟩, { count := 3 })]
    callees := .ofList [(⟨⟨2⟩, "e"⟩, {
      name := "e", entryCount := 1, samples := .ofList [(⟨4⟩, { count := 5 })] })] })] }]

/-- The two stores have the same digest, and a sum that overflows does so in any order. -/
theorem digests_of_same_counts :
    (besideEachOther.toList.flatMap FunctionProfile.counts).Perm
      (belowEachOther.toList.flatMap FunctionProfile.counts) ∧
    (∀ cutoffs, (besideEachOther.summary cutoffs).map Summary.digest
      = (belowEachOther.summary cutoffs).map Summary.digest) ∧
    (∃ x, besideEachOther.summary [500000] = .ok x ∧ x.numFunctions = 2 ∧ 9 ≤ x.maxEntryCount) ∧
    ∀ cutoffs,
      (SummaryBuilder.ofCalls
          [.count 1, .function 4, .count 0xffffffffffffffff, .count 2]).build cutoffs
        = (SummaryBuilder.ofCalls
          [.count 0xffffffffffffffff, .count 2, .count 1, .function 4]).build cutoffs := by
  obtain ⟨hstores, hfunctions, hcalls⟩ := summary_depends_on_counts
  have hperm : (besideEachOther.toList.flatMap FunctionProfile.counts).Perm
      (belowEachOther.toList.flatMap FunctionProfile.counts) := by decide +kernel
  have hsum : Count.exactSum besideEachOther.sampleCounts ≤ Count.limit := by
    rw [Store.sampleCounts_eq]
    decide +kernel
  have hscale : ∀ cutoff ∈ ([500000] : List UInt32), cutoff.toNat ≤ cutoffScale := by
    simp [cutoffScale]
  obtain ⟨x, hx, -⟩ := Summary.ofCounts_of_fits besideEachOther.entryCounts hsum hscale
  have hsummary := (besideEachOther.summary_eq [500000]).trans hx
  obtain ⟨hsize, -, hle⟩ := hfunctions _ _ x hsummary
  exact ⟨hperm, hstores _ _ hperm, ⟨x, hsummary, hsize, hle 9 (by decide +kernel)⟩,
    hcalls _ _ (by decide)⟩

end SamplingProfile
