-- The text of a summary, as it is shown to people: one line for each number, and one for
-- each cutoff, with the share in percent.
import SamplingProfile.Summary.Basic

namespace SamplingProfile

/-- The four decimal places of a fraction of `10000`, without the zeros at the end. -/
def fractionDigits (fraction : Nat) : List Char :=
  let places := (toString (10000 + fraction)).toList.drop 1
  (places.reverse.dropWhile (· = '0')).reverse

/-- A cutoff in percent, in the shortest decimal form. -/
def percentText (cutoff : UInt32) : String :=
  let whole := toString (cutoff.toNat / 10000)
  match fractionDigits (cutoff.toNat % 10000) with
  | [] => whole
  | digits => whole ++ "." ++ String.ofList digits

/-- The line of one cutoff. -/
def Coverage.describe (c : Coverage) : String :=
  s!"{c.numCounts} count(s) with count >= {c.minCount} account for {percentText c.cutoff} " ++
    "percentage of the total counts."

/-- The text of a summary, one line after the other, the last one without its end. -/
def Summary.describe (s : Summary) : String :=
  String.intercalate "\n" ([
    s!"Total functions: {s.numFunctions}",
    s!"Maximum function count: {s.maxEntryCount}",
    s!"Maximum sample count: {s.maxCount}",
    s!"Total number of counts: {s.numCounts}",
    s!"Total count: {s.totalCount}",
    "Detailed summary:",
    s!"{s.coverage.length} cutoffs"] ++ s.coverage.map Coverage.describe)

end SamplingProfile
