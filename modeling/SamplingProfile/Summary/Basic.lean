-- Summaries: a profile in a few numbers. The counts are taken from the largest down, and
-- for each cutoff the summary says how many of them it takes to cover that share of all
-- samples, and how small the last of these counts is.
import SamplingProfile.Count

namespace SamplingProfile

/-- Cutoffs are shares in millionths. -/
def cutoffScale : Nat := 1000000

/-- How many of the largest counts cover a share of all samples. -/
structure Coverage where
  /-- The share, in millionths. -/
  cutoff : UInt32
  /-- The smallest of these counts. -/
  minCount : Count
  /-- How many counts it takes. -/
  numCounts : Nat
deriving DecidableEq, Repr

/-- The summary of a profile. -/
structure Summary where
  /-- The sum of all sample counts. -/
  totalCount : Count
  /-- The largest sample count. -/
  maxCount : Count
  /-- The largest number of times that a function was entered. -/
  maxEntryCount : Count
  /-- The number of sample counts. -/
  numCounts : Nat
  /-- The number of functions. -/
  numFunctions : Nat
  coverage : List Coverage
deriving DecidableEq, Repr

/-- Why there is no summary. -/
inductive SummaryError
  /-- A cutoff asks for more than all samples. -/
  | invalidCutoff (cutoff : UInt32)
  /-- The sum of all counts passes the largest count. -/
  | countOverflow
deriving DecidableEq, Repr

/-- What is said of the error. -/
def SummaryError.message : SummaryError → String
  | .invalidCutoff cutoff => s!"Cutoff {cutoff} is larger than 1000000"
  | .countOverflow => "Total sample count overflowed a 64 bit integer"

/-- The cutoffs of the summaries that are written with profiles. -/
def defaultCutoffs : List UInt32 :=
  [10000, 100000, 200000, 300000, 400000, 500000, 600000, 700000, 800000, 900000, 950000,
   990000, 999000, 999900, 999990, 999999]

/-! ## Covering a share -/

/-- The smallest count and the number of the first counts whose sum, with `sum` from before,
reaches the goal. Counts are in samples and the goal is in millionths of a sample. -/
def Coverage.reach (goal : Nat) : (sum : Nat) → (taken : Nat) → List Count → Count × Nat
  | _, _, [] => (0, 0)
  | sum, taken, count :: rest =>
    if goal ≤ (sum + count.toNat) * cutoffScale then (count, taken + 1)
    else reach goal (sum + count.toNat) (taken + 1) rest

/-- How many counts of a descending list cover the share `cutoff` of their sum `total`. -/
def Coverage.ofCounts (descending : List Count) (total : Count) (cutoff : UInt32) : Coverage :=
  if total = 0 then { cutoff, minCount := 0, numCounts := 0 }
  else
    let reached := reach (cutoff.toNat * total.toNat) 0 0 descending
    { cutoff, minCount := reached.1, numCounts := reached.2 }

/-- The smallest count that is still hot for a cutoff, if the summary covers that cutoff. -/
def Summary.hotThreshold? (s : Summary) (cutoff : UInt32) : Option Count :=
  (s.coverage.find? fun c => c.cutoff == cutoff).map Coverage.minCount

/-! ## Building -/

/-- Counts on their way into a summary. -/
structure SummaryBuilder where
  /-- The sample counts so far, the last one first. -/
  counts : List Count := []
  /-- The sum of the counts, as long as none has overflowed it. -/
  total : Count := 0
  overflowed : Bool := false
  maxCount : Count := 0
  maxEntryCount : Count := 0
  numFunctions : Nat := 0

namespace SummaryBuilder

/-- One more function, and how often it was entered. -/
def addFunction (b : SummaryBuilder) (entryCount : Count) : SummaryBuilder :=
  { b with
    numFunctions := b.numFunctions + 1
    maxEntryCount := max b.maxEntryCount entryCount }

/-- One more sample count. A sum that passes the largest count is not taken but remembered. -/
def addCount (b : SummaryBuilder) (count : Count) : SummaryBuilder :=
  let b := { b with counts := count :: b.counts, maxCount := max b.maxCount count }
  if b.total.toNat + count.toNat ≤ Count.limit then { b with total := b.total + count }
  else { b with overflowed := true }

/-- The summary for a list of cutoffs, with one entry for each, in their order. -/
def build (b : SummaryBuilder) (cutoffs : List UInt32) : Except SummaryError Summary :=
  if b.overflowed then .error .countOverflow
  else
    match cutoffs.find? fun c => cutoffScale < c.toNat with
    | some bad => .error (.invalidCutoff bad)
    | none =>
      let descending := b.counts.mergeSort fun a b => decide (b ≤ a)
      .ok {
        totalCount := b.total
        maxCount := b.maxCount
        maxEntryCount := b.maxEntryCount
        numCounts := b.counts.length
        numFunctions := b.numFunctions
        coverage := cutoffs.map (Coverage.ofCounts descending b.total) }

end SummaryBuilder

end SamplingProfile
