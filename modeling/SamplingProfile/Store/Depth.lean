-- How deep callees may be inlined. Readers and writers follow the callees of a function
-- level by level, and all of them hold to one limit.
import SamplingProfile.Store.Basic

namespace SamplingProfile

/-- The longest chain of inlined callees that a profile may have below a function. -/
def maxInlineDepth : Nat := 128

/-- The first function whose callees are nested deeper than readers accept. -/
def Store.tooDeep? (s : Store) : Option FunctionProfile :=
  s.toList.find? fun f => maxInlineDepth < f.inlineDepth

theorem Store.tooDeep?_eq_none_iff {s : Store} :
    s.tooDeep? = none ↔ ∀ f ∈ s.toList, f.height ≤ maxInlineDepth := by
  simp [tooDeep?]

end SamplingProfile
