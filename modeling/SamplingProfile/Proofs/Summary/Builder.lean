-- What a builder of summaries holds after some calls. The sum of the counts is checked at every
-- call, and still it is the exact sum of all of them that decides whether it has overflowed; so
-- the order of the calls plays no part in what is built.
import Mathlib.Algebra.Ring.Nat
import SamplingProfile.Summary.Basic

namespace SamplingProfile

/-! ## Counts in any order -/

namespace Count

/-- The sum of some counts in exact numbers. -/
def exactSum (counts : List Count) : Nat := (counts.map UInt64.toNat).sum

@[simp] theorem exactSum_nil : exactSum [] = 0 := rfl

@[simp] theorem exactSum_cons (count : Count) (counts : List Count) :
    exactSum (count :: counts) = count.toNat + exactSum counts := by
  simp [exactSum]

@[simp] theorem exactSum_append (counts counts' : List Count) :
    exactSum (counts ++ counts') = exactSum counts + exactSum counts' := by
  simp [exactSum]

theorem exactSum_of_perm {counts counts' : List Count} (h : counts.Perm counts') :
    exactSum counts = exactSum counts' := (h.map UInt64.toNat).sum_nat

theorem largest_append (counts : List Count) (count : Count) :
    largest (counts ++ [count]) = max (largest counts) count := by
  simp [largest]

theorem largest_of_perm {counts counts' : List Count} (h : counts.Perm counts') :
    largest counts = largest counts' := by
  refine h.foldl_eq' (fun a _ b _ c => ?_) 0
  apply UInt64.toNat_inj.1
  simp only [toNat_max]
  omega

theorem le_foldl_max (counts : List Count) (start : Count) :
    start ≤ counts.foldl max start ∧ ∀ n ∈ counts, n ≤ counts.foldl max start := by
  induction counts generalizing start with
  | nil => exact ⟨UInt64.le_refl start, fun _ h => nomatch h⟩
  | cons count counts ih =>
    obtain ⟨hstart, hcounts⟩ := ih (max start count)
    simp only [UInt64.le_iff_toNat_le, toNat_max] at hstart
    refine ⟨?_, List.forall_mem_cons.2 ⟨?_, hcounts⟩⟩
    · rw [List.foldl_cons, UInt64.le_iff_toNat_le]
      omega
    · rw [List.foldl_cons, UInt64.le_iff_toNat_le]
      omega

theorem foldl_max_mem (counts : List Count) (start : Count) :
    counts.foldl max start ∈ start :: counts := by
  induction counts generalizing start with
  | nil => exact List.mem_cons_self
  | cons count counts ih =>
    rw [List.foldl_cons]
    have hmax : max start count = start ∨ max start count = count := by
      by_cases hle : start ≤ count
      · exact .inr (if_pos hle)
      · exact .inl (if_neg hle)
    rcases List.mem_cons.1 (ih (max start count)) with h | h
    · rw [h]
      rcases hmax with hmax | hmax <;> simp [hmax]
    · exact List.mem_cons_of_mem _ (List.mem_cons_of_mem _ h)

/-- The largest count is one of the list, or 0. -/
theorem largest_mem (counts : List Count) : largest counts ∈ 0 :: counts := foldl_max_mem counts 0

theorem le_largest (counts : List Count) : ∀ n ∈ counts, n ≤ largest counts :=
  (le_foldl_max counts 0).2

theorem largest_eq_of_mem {counts : List Count} {n : Count} (hmem : n ∈ counts)
    (hle : ∀ m ∈ counts, m ≤ n) : largest counts = n := by
  apply UInt64.le_antisymm _ (le_largest counts n hmem)
  rcases List.mem_cons.1 (largest_mem counts) with hzero | hmem'
  · rw [hzero, UInt64.le_iff_toNat_le]
    exact Nat.zero_le _
  · exact hle _ hmem'

/-- That counts are ranked from the largest down. -/
structure Ranks (ranked counts : List Count) : Prop where
  perm : ranked.Perm counts
  descending : ranked.Pairwise fun a b => b ≤ a

theorem ranks_mergeSort (counts : List Count) :
    Ranks (counts.mergeSort fun a b => decide (b ≤ a)) counts := by
  refine ⟨List.mergeSort_perm _ _, ?_⟩
  have h : (counts.mergeSort fun a b => decide (b ≤ a)).Pairwise fun a b => decide (b ≤ a) := by
    apply List.pairwise_mergeSort
    · intro a b c hab hbc
      rw [decide_eq_true_iff] at hab hbc ⊢
      exact UInt64.le_trans hbc hab
    · intro a b
      rw [Bool.or_eq_true, decide_eq_true_iff, decide_eq_true_iff]
      exact UInt64.le_total b a
  exact h.imp fun hle => of_decide_eq_true hle

/-- There is one ranking of some counts, as equal counts are the same. -/
theorem Ranks.eq_of_perm {ranked ranked' counts counts' : List Count} (h : Ranks ranked counts)
    (h' : Ranks ranked' counts') (hperm : counts.Perm counts') : ranked = ranked' := by
  have hranked : ranked.Perm ranked' := (h.perm.trans hperm).trans h'.perm.symm
  refine hranked.eq_of_pairwise (fun a b _ _ hab hba => ?_) h.descending h'.descending
  exact UInt64.le_antisymm hba hab

end Count

/-! ## Calls -/

namespace SummaryBuilder

/-- A call of a builder. -/
inductive Call
  /-- One more function, and how often it was entered. -/
  | function (entryCount : Count)
  /-- One more sample count. -/
  | count (count : Count)
deriving DecidableEq, Repr

/-- The sample count that a call brings. -/
def Call.count? : Call → Option Count
  | function _ => none
  | count n => some n

/-- The entry count that a call brings. -/
def Call.entryCount? : Call → Option Count
  | function n => some n
  | count _ => none

/-- The builder after one more call. -/
def call (b : SummaryBuilder) : Call → SummaryBuilder
  | .function n => b.addFunction n
  | .count n => b.addCount n

/-- The builder after some calls, the first one first. -/
def ofCalls (calls : List Call) : SummaryBuilder := calls.foldl call {}

/-- What a builder holds of sample counts and of entry counts that it was given in this order. -/
structure Holds (b : SummaryBuilder) (counts entryCounts : List Count) : Prop where
  held : b.counts = counts.reverse
  total : b.overflowed = false → b.total.toNat = Count.exactSum counts
  overflowed : b.overflowed = true → Count.limit < Count.exactSum counts
  maxCount : b.maxCount = Count.largest counts
  maxEntryCount : b.maxEntryCount = Count.largest entryCounts
  numFunctions : b.numFunctions = entryCounts.length

variable {b : SummaryBuilder} {counts entryCounts : List Count}

theorem holds_new : Holds {} [] [] :=
  ⟨rfl, fun _ => rfl, fun h => absurd h Bool.false_ne_true, rfl, rfl, rfl⟩

theorem Holds.addFunction (h : b.Holds counts entryCounts) (entryCount : Count) :
    (b.addFunction entryCount).Holds counts (entryCounts ++ [entryCount]) where
  held := h.held
  total := h.total
  overflowed := h.overflowed
  maxCount := h.maxCount
  maxEntryCount := by
    rw [Count.largest_append, ← h.maxEntryCount]
    rfl
  numFunctions := by
    rw [List.length_append, ← h.numFunctions]
    rfl

/-- A count that does not fit is not added, and then the exact sum is too large for good. -/
theorem Holds.addCount (h : b.Holds counts entryCounts) (count : Count) :
    (b.addCount count).Holds (counts ++ [count]) entryCounts := by
  have hcounts : count :: b.counts = (counts ++ [count]).reverse := by
    rw [h.held, List.reverse_append]
    rfl
  have hmax : max b.maxCount count = Count.largest (counts ++ [count]) := by
    rw [Count.largest_append, h.maxCount]
  have hsum : Count.exactSum (counts ++ [count]) = Count.exactSum counts + count.toNat := by simp
  unfold SummaryBuilder.addCount
  dsimp only
  split
  · rename_i hfits
    refine ⟨hcounts, fun hno => ?_, fun hover => ?_, hmax, h.maxEntryCount, h.numFunctions⟩
    · have htotal := h.total hno
      rw [hsum, ← htotal, UInt64.toNat_add]
      apply Nat.mod_eq_of_lt
      simp only [Count.limit, UInt64.size] at hfits
      omega
    · have := h.overflowed hover
      omega
  · rename_i hover
    refine ⟨hcounts, fun hno => absurd hno.symm Bool.false_ne_true, fun _ => ?_, hmax,
      h.maxEntryCount, h.numFunctions⟩
    rw [hsum]
    cases hflag : b.overflowed with
    | false =>
      have := h.total hflag
      omega
    | true =>
      have := h.overflowed hflag
      omega

theorem Holds.foldl_addCount (h : b.Holds counts entryCounts) (more : List Count) :
    (more.foldl SummaryBuilder.addCount b).Holds (counts ++ more) entryCounts := by
  induction more generalizing b counts with
  | nil => simpa using h
  | cons count more ih => simpa using ih (h.addCount count)

/-- After some calls a builder holds what they brought. -/
theorem holds_ofCalls (calls : List Call) :
    (ofCalls calls).Holds (calls.filterMap Call.count?) (calls.filterMap Call.entryCount?) := by
  have hrun : ∀ (calls : List Call) (b : SummaryBuilder) (counts entryCounts : List Count),
      b.Holds counts entryCounts →
        (calls.foldl call b).Holds (counts ++ calls.filterMap Call.count?)
          (entryCounts ++ calls.filterMap Call.entryCount?) := by
    intro calls
    induction calls with
    | nil =>
      intro b counts entryCounts h
      simpa using h
    | cons c calls ih =>
      intro b counts entryCounts h
      cases c with
      | function n =>
        simpa [List.filterMap_cons, call, Call.count?, Call.entryCount?]
          using ih _ _ _ (h.addFunction n)
      | count n =>
        simpa [List.filterMap_cons, call, Call.count?, Call.entryCount?]
          using ih _ _ _ (h.addCount n)
  exact hrun calls {} [] [] holds_new

end SummaryBuilder

/-! ## What is built -/

/-- The summary of some sample counts and entry counts, in exact numbers. -/
def Summary.ofCounts (counts entryCounts : List Count) (cutoffs : List UInt32) :
    Except SummaryError Summary :=
  if Count.limit < Count.exactSum counts then .error .countOverflow
  else
    match cutoffs.find? fun c => cutoffScale < c.toNat with
    | some bad => .error (.invalidCutoff bad)
    | none =>
      let total := UInt64.ofNat (Count.exactSum counts)
      .ok {
        totalCount := total
        maxCount := Count.largest counts
        maxEntryCount := Count.largest entryCounts
        numCounts := counts.length
        numFunctions := entryCounts.length
        coverage := cutoffs.map
          (Coverage.ofCounts (counts.mergeSort fun a b => decide (b ≤ a)) total) }

theorem SummaryBuilder.Holds.build_eq {b : SummaryBuilder} {counts entryCounts : List Count}
    (h : b.Holds counts entryCounts) (cutoffs : List UInt32) :
    b.build cutoffs = Summary.ofCounts counts entryCounts cutoffs := by
  have hranked : b.counts.mergeSort (fun a b => decide (b ≤ a))
      = counts.mergeSort fun a b => decide (b ≤ a) :=
    (Count.ranks_mergeSort _).eq_of_perm (Count.ranks_mergeSort _)
      (h.held ▸ List.reverse_perm counts)
  have hlength : b.counts.length = counts.length := by rw [h.held, List.length_reverse]
  unfold build Summary.ofCounts
  cases hflag : b.overflowed with
  | true => rw [if_pos rfl, if_pos (h.overflowed hflag)]
  | false =>
    have htotal := h.total hflag
    have hfits : ¬ Count.limit < Count.exactSum counts := by
      have := b.total.toNat_le_limit
      omega
    have hofNat : UInt64.ofNat (Count.exactSum counts) = b.total := by
      rw [← htotal, UInt64.ofNat_toNat]
    rw [if_neg Bool.false_ne_true, if_neg hfits, hofNat]
    cases cutoffs.find? fun c => cutoffScale < c.toNat with
    | some bad => rfl
    | none =>
      simp only [hranked, hlength, h.maxCount, h.maxEntryCount, h.numFunctions]

/-- What a summary says of some sample counts and entry counts, in exact numbers. -/
structure Summary.IsOf (x : Summary) (counts entryCounts : List Count) (cutoffs : List UInt32) :
    Prop where
  fits : Count.exactSum counts ≤ Count.limit
  valid : ∀ cutoff ∈ cutoffs, cutoff.toNat ≤ cutoffScale
  totalCount : x.totalCount.toNat = Count.exactSum counts
  maxCount : x.maxCount = Count.largest counts
  maxEntryCount : x.maxEntryCount = Count.largest entryCounts
  numCounts : x.numCounts = counts.length
  numFunctions : x.numFunctions = entryCounts.length
  coverage : x.coverage = cutoffs.map
    (Coverage.ofCounts (counts.mergeSort fun a b => decide (b ≤ a)) x.totalCount)

theorem Summary.isOf_of_ofCounts {counts entryCounts : List Count} {cutoffs : List UInt32}
    {x : Summary} (h : ofCounts counts entryCounts cutoffs = .ok x) :
    x.IsOf counts entryCounts cutoffs := by
  unfold ofCounts at h
  split at h
  · cases h
  · rename_i hfits
    split at h
    · cases h
    · rename_i hvalid
      cases h
      have hle := Nat.le_of_not_lt hfits
      refine ⟨hle, fun cutoff hmem => ?_, UInt64.toNat_ofNat_of_lt' ?_, rfl, rfl, rfl, rfl, rfl⟩
      · simpa using List.find?_eq_none.1 hvalid cutoff hmem
      · simp only [Count.limit, UInt64.size] at hle ⊢
        omega

/-- There is a summary if the sum fits and no cutoff asks for more than all. -/
theorem Summary.ofCounts_of_fits {counts : List Count} (entryCounts : List Count)
    {cutoffs : List UInt32} (hsum : Count.exactSum counts ≤ Count.limit)
    (hcutoffs : ∀ cutoff ∈ cutoffs, cutoff.toNat ≤ cutoffScale) :
    ∃ x, ofCounts counts entryCounts cutoffs = .ok x ∧
      x.totalCount.toNat = Count.exactSum counts ∧
      x.coverage = cutoffs.map
        (Coverage.ofCounts (counts.mergeSort fun a b => decide (b ≤ a)) x.totalCount) := by
  have hvalid : cutoffs.find? (fun c => cutoffScale < c.toNat) = none := by
    rw [List.find?_eq_none]
    intro cutoff hmem
    simpa using hcutoffs cutoff hmem
  have hok : ∃ x, ofCounts counts entryCounts cutoffs = .ok x := by
    unfold ofCounts
    rw [if_neg (Nat.not_lt.2 hsum), hvalid]
    exact ⟨_, rfl⟩
  obtain ⟨x, hx⟩ := hok
  have hof := isOf_of_ofCounts hx
  exact ⟨x, hx, hof.totalCount, hof.coverage⟩

/-- The order of the counts plays no part. -/
theorem Summary.ofCounts_of_perm {counts counts' entryCounts entryCounts' : List Count}
    (h : counts.Perm counts') (hentries : entryCounts.Perm entryCounts') (cutoffs : List UInt32) :
    ofCounts counts entryCounts cutoffs = ofCounts counts' entryCounts' cutoffs := by
  have hranked := (Count.ranks_mergeSort counts).eq_of_perm (Count.ranks_mergeSort counts') h
  unfold ofCounts
  rw [Count.exactSum_of_perm h, Count.largest_of_perm h, Count.largest_of_perm hentries,
    h.length_eq, hentries.length_eq, hranked]

end SamplingProfile
