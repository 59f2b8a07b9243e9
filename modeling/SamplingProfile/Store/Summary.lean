-- The summary of a store: every function with its entry count, and every sample count at
-- every depth.
import SamplingProfile.Store.Basic
import SamplingProfile.Summary.Basic

namespace SamplingProfile

/-- One more function with its sample counts. -/
def SummaryBuilder.addProfile (b : SummaryBuilder) (f : FunctionProfile) : SummaryBuilder :=
  f.sampleCounts.foldl addCount (b.addFunction f.entryCount)

/-- The summary of a store for a list of cutoffs. -/
def Store.summary (s : Store) (cutoffs : List UInt32) : Except SummaryError Summary :=
  (s.toList.foldl SummaryBuilder.addProfile {}).build cutoffs

end SamplingProfile
