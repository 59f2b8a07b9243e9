-- What a text keeps of a store: the names of functions and of the callsites, the counts, and no
-- more. The summary is made of counts, so a store and what a text keeps of it have the same one.
import SamplingProfile.Store.Summary

namespace SamplingProfile

/-! ## One node -/

/-- A tally as a text has it, where every location counts as one instruction. -/
def Tally.plain (t : Tally) : Tally := { t with instructions := 1 }

/-- A node as a text has it, with the name that it is found under. -/
def Body.plain (b : Body) (name : String) (entryCount : Count) : Body :=
  { name, entryCount, samples := b.samples.mapValues Tally.plain }

theorem Body.counts_plain (b : Body) (name : String) (entryCount : Count) :
    (b.plain name entryCount).counts = b.counts := by
  simp [counts, plain, SortedMap.values, SortedMap.mapValues, Tally.plain]

/-! ## Trees -/

/-- Callees as a text has them: each with the name of its callsite, and without a count of
entries. -/
def Forest.plain : Forest → Forest
  | nil => nil
  | cons site body inner rest => cons site (body.plain site.callee 0) inner.plain rest.plain

theorem Forest.sites_plain (f : Forest) : f.plain.sites = f.sites := by
  induction f with
  | nil => rfl
  | cons site body inner rest _ ih => rw [plain, sites, sites, ih]

theorem Forest.ordered_plain {f : Forest} (h : f.Ordered) : f.plain.Ordered := by
  induction f with
  | nil => trivial
  | cons site body inner rest ih ih' =>
    refine ⟨?_, ih h.2.1, ih' h.2.2⟩
    rw [sites_plain]
    exact h.1

theorem Forest.counts_plain (f : Forest) : f.plain.counts = f.counts := by
  induction f with
  | nil => rfl
  | cons site body inner rest ih ih' => rw [plain, counts, counts, Body.counts_plain, ih, ih']

/-- The callees of a node as a text has them. -/
def Callees.plain (c : Callees) : Callees := ⟨c.forest.plain, Forest.ordered_plain c.ordered⟩

/-- A function as a text has it. -/
def FunctionProfile.plain (f : FunctionProfile) : FunctionProfile :=
  { f.toBody.plain f.name f.entryCount with callees := f.callees.plain }

theorem FunctionProfile.sampleCounts_plain (f : FunctionProfile) :
    f.plain.sampleCounts = f.sampleCounts := by
  have hbody : (f.toBody.plain f.name f.entryCount).counts = f.toBody.counts :=
    f.toBody.counts_plain f.name f.entryCount
  have hforest : f.callees.plain.forest.counts = f.callees.forest.counts :=
    f.callees.forest.counts_plain
  rw [sampleCounts_eq_counts, sampleCounts_eq_counts, counts, counts, ← hbody, ← hforest]
  rfl

/-! ## Stores -/

namespace Store

/-- A store as a text has it. -/
def plain (s : Store) : Store where
  functions := s.functions.mapValues FunctionProfile.plain
  named := fun e he => by
    obtain ⟨own, hown, rfl⟩ := List.mem_map.1 he
    exact s.named own hown

theorem toList_plain (s : Store) : s.plain.toList = s.toList.map FunctionProfile.plain := by
  simp [toList, plain, SortedMap.values, SortedMap.mapValues]

/-- The summary is the same for any cutoffs. -/
theorem summary_plain (s : Store) (cutoffs : List UInt32) :
    s.plain.summary cutoffs = s.summary cutoffs := by
  have hadd : ∀ (b : SummaryBuilder) (f : FunctionProfile),
      b.addProfile f.plain = b.addProfile f := by
    intro b f
    rw [SummaryBuilder.addProfile, FunctionProfile.sampleCounts_plain]
    rfl
  rw [summary, toList_plain, List.foldl_map]
  simp only [hadd]
  rfl

end Store

end SamplingProfile
