-- How many of the largest counts cover a share of all samples. The scan takes the counts from the
-- largest down and stops at the first sum that is large enough; so it takes no more counts than it
-- must, and none is missing when the share is at most the whole. Nothing in it passes 128 bits.
import SamplingProfile.Proofs.Summary.Builder

namespace SamplingProfile

namespace Coverage

/-- That an entry takes the least number of the largest counts whose sum is its share of all, or
one if it asks for nothing, and the last of them as its smallest. -/
structure IsLeast (ranked : List Count) (e : Coverage) : Prop where
  pos : 1 ≤ e.numCounts
  le_length : e.numCounts ≤ ranked.length
  covers : e.cutoff.toNat * Count.exactSum ranked
    ≤ Count.exactSum (ranked.take e.numCounts) * cutoffScale
  least : ∀ n, 1 ≤ n → n < e.numCounts →
    Count.exactSum (ranked.take n) * cutoffScale < e.cutoff.toNat * Count.exactSum ranked
  smallest : ranked[e.numCounts - 1]? = some e.minCount

/-! ## The scan -/

/-- Where a sum of all counts is large enough, the scan stops at the first that is. -/
theorem reach_eq_of_le {goal sum : Nat} (taken : Nat) {counts : List Count} (hne : counts ≠ [])
    (hgoal : goal ≤ (sum + Count.exactSum counts) * cutoffScale) :
    ∃ n count, reach goal sum taken counts = (count, taken + (n + 1)) ∧
      counts[n]? = some count ∧
      goal ≤ (sum + Count.exactSum (counts.take (n + 1))) * cutoffScale ∧
      ∀ m, 1 ≤ m → m < n + 1 →
        (sum + Count.exactSum (counts.take m)) * cutoffScale < goal := by
  induction counts generalizing sum taken with
  | nil => exact absurd rfl hne
  | cons first rest ih =>
    unfold reach
    by_cases hfirst : goal ≤ (sum + first.toNat) * cutoffScale
    · rw [if_pos hfirst]
      refine ⟨0, first, rfl, rfl, by simpa using hfirst, fun m hm hlt => ?_⟩
      omega
    · rw [if_neg hfirst]
      have hrest : rest ≠ [] := by
        rintro rfl
        exact hfirst (by simpa using hgoal)
      rw [Count.exactSum_cons, ← Nat.add_assoc] at hgoal
      obtain ⟨n, count, hreach, hcount, hcovers, hleast⟩ :=
        ih (taken + 1) hrest hgoal
      refine ⟨n + 1, count, ?_, hcount, ?_, fun m hm hlt => ?_⟩
      · rw [hreach, Nat.add_right_comm, Nat.add_assoc]
      · rw [List.take_succ_cons, Count.exactSum_cons, ← Nat.add_assoc]
        exact hcovers
      · obtain ⟨m, rfl⟩ : ∃ k, m = k + 1 := ⟨m - 1, by omega⟩
        rw [List.take_succ_cons, Count.exactSum_cons, ← Nat.add_assoc]
        cases m with
        | zero => simpa using Nat.lt_of_not_le hfirst
        | succ m => exact hleast (m + 1) (by omega) (by omega)

/-- A share of counts that are not all zero is covered by the least number of them. -/
theorem isLeast_ofCounts {ranked : List Count} {total : Count} {cutoff : UInt32}
    (htotal : total.toNat = Count.exactSum ranked) (hpos : total ≠ 0)
    (hcutoff : cutoff.toNat ≤ cutoffScale) : (ofCounts ranked total cutoff).IsLeast ranked := by
  have hne : ranked ≠ [] := by
    rintro rfl
    exact hpos (UInt64.toNat_inj.1 htotal)
  have hgoal : cutoff.toNat * total.toNat ≤ (0 + Count.exactSum ranked) * cutoffScale := by
    rw [htotal, Nat.zero_add, Nat.mul_comm]
    exact Nat.mul_le_mul_left _ hcutoff
  obtain ⟨n, count, hreach, hcount, hcovers, hleast⟩ := reach_eq_of_le 0 hne hgoal
  simp only [Nat.zero_add, htotal] at hreach hcovers hleast
  have heq : ofCounts ranked total cutoff = { cutoff, minCount := count, numCounts := n + 1 } := by
    simp only [ofCounts, if_neg hpos, htotal, hreach]
  rw [heq]
  refine ⟨Nat.le_add_left 1 n, ?_, hcovers, hleast, hcount⟩
  exact (List.getElem?_eq_some_iff.1 hcount).1

/-- The entry of a cutoff is for that cutoff, whatever it covers. -/
theorem cutoff_ofCounts (ranked : List Count) (total : Count) (cutoff : UInt32) :
    (ofCounts ranked total cutoff).cutoff = cutoff := by
  unfold ofCounts
  split <;> rfl

/-! ## The scan in words -/

/-- The scan in words of 128 bits, whose sums and products wrap around. -/
def reachInWords (goal : BitVec 128) : (sum : BitVec 128) → (taken : Nat) → List Count → Count × Nat
  | _, _, [] => (0, 0)
  | sum, taken, count :: rest =>
    if goal ≤ (sum + count.toBitVec.setWidth 128) * BitVec.ofNat 128 cutoffScale then
      (count, taken + 1)
    else reachInWords goal (sum + count.toBitVec.setWidth 128) (taken + 1) rest

/-- How many counts of a descending list cover a share of their sum, found in words. -/
def ofCountsInWords (descending : List Count) (total : Count) (cutoff : UInt32) : Coverage :=
  if total = 0 then { cutoff, minCount := 0, numCounts := 0 }
  else
    let goal := cutoff.toBitVec.setWidth 128 * total.toBitVec.setWidth 128
    let reached := reachInWords goal 0 0 descending
    { cutoff, minCount := reached.1, numCounts := reached.2 }

/-- Sums of counts that fit into 64 bits stay the same in words. -/
theorem reachInWords_eq (goal : BitVec 128) {sum : BitVec 128} {counts : List Count}
    (hsum : sum.toNat + Count.exactSum counts < UInt64.size) (taken : Nat) :
    reachInWords goal sum taken counts = reach goal.toNat sum.toNat taken counts := by
  induction counts generalizing sum taken with
  | nil => rfl
  | cons count rest ih =>
    rw [Count.exactSum_cons] at hsum
    simp only [UInt64.size] at hsum ih
    have hadd : (sum + count.toBitVec.setWidth 128).toNat = sum.toNat + count.toNat := by
      simp only [BitVec.toNat_add, BitVec.toNat_setWidth, UInt64.toNat_toBitVec]
      omega
    have hscaled : ((sum + count.toBitVec.setWidth 128) * BitVec.ofNat 128 cutoffScale).toNat
        = (sum.toNat + count.toNat) * cutoffScale := by
      have hscale : (BitVec.ofNat 128 cutoffScale).toNat = cutoffScale := BitVec.toNat_ofNat _ _
      rw [BitVec.toNat_mul, hadd, hscale]
      apply Nat.mod_eq_of_lt
      rw [cutoffScale]
      omega
    have hfits : (sum + count.toBitVec.setWidth 128).toNat + Count.exactSum rest < 2 ^ 64 := by
      omega
    have hrest := ih hfits (taken + 1)
    unfold reachInWords reach
    simp only [BitVec.le_def, hscaled, hrest, hadd]

theorem ofCountsInWords_eq {ranked : List Count} {total : Count} {cutoff : UInt32}
    (htotal : total.toNat = Count.exactSum ranked) :
    ofCountsInWords ranked total cutoff = ofCounts ranked total cutoff := by
  have hcutoff := cutoff.toNat_lt
  have hlt := total.toNat_lt
  have hmul : cutoff.toNat * total.toNat < 2 ^ 128 := by
    have := Nat.mul_lt_mul'' hcutoff hlt
    omega
  have hgoal : (cutoff.toBitVec.setWidth 128 * total.toBitVec.setWidth 128).toNat
      = cutoff.toNat * total.toNat := by
    simp only [BitVec.toNat_mul, BitVec.toNat_setWidth, UInt32.toNat_toBitVec,
      UInt64.toNat_toBitVec]
    have hcutoffFits : cutoff.toNat % 2 ^ 128 = cutoff.toNat := by omega
    have htotalFits : total.toNat % 2 ^ 128 = total.toNat := by omega
    rw [hcutoffFits, htotalFits, Nat.mod_eq_of_lt hmul]
  have hzero : (0 : BitVec 128).toNat = 0 := BitVec.toNat_zero
  have hsum : (0 : BitVec 128).toNat + Count.exactSum ranked < UInt64.size := by
    rw [hzero, Nat.zero_add, ← htotal]
    exact total.toNat_lt_size
  have hreach := reachInWords_eq (cutoff.toBitVec.setWidth 128 * total.toBitVec.setWidth 128)
    hsum 0
  rw [hgoal, hzero] at hreach
  unfold ofCountsInWords ofCounts
  simp only [hreach]

/-- No sum of counts that fits into 64 bits passes 128 bits when it is scaled. -/
theorem scaled_lt {ranked : List Count} (h : Count.exactSum ranked < UInt64.size) (n : Nat) :
    Count.exactSum (ranked.take n) * cutoffScale < 2 ^ 128 := by
  have hsplit := Count.exactSum_append (ranked.take n) (ranked.drop n)
  rw [List.take_append_drop] at hsplit
  simp only [UInt64.size] at h
  simp only [cutoffScale]
  omega

end Coverage

/-! ## What a builder covers -/

namespace SummaryBuilder

/-- What is built covers the counts from the largest down, in whatever order they came. -/
theorem build_of_fits {calls : List Call} {cutoffs : List UInt32} {ranked : List Count}
    (hsum : Count.exactSum (calls.filterMap Call.count?) < UInt64.size)
    (hcutoffs : ∀ cutoff ∈ cutoffs, cutoff.toNat ≤ cutoffScale)
    (hranked : Count.Ranks ranked (calls.filterMap Call.count?)) :
    ∃ x, (ofCalls calls).build cutoffs = .ok x ∧
      x.totalCount.toNat = Count.exactSum ranked ∧
      x.coverage = cutoffs.map (Coverage.ofCounts ranked x.totalCount) := by
  obtain ⟨x, hx, htotal, hcoverage⟩ := Summary.ofCounts_of_fits
    (calls.filterMap Call.entryCount?) (Nat.le_sub_one_of_lt hsum) hcutoffs
  rw [(Count.ranks_mergeSort _).eq_of_perm hranked (.refl _)] at hcoverage
  rw [← Count.exactSum_of_perm hranked.perm] at htotal
  exact ⟨x, ((holds_ofCalls calls).build_eq cutoffs).trans hx, htotal, hcoverage⟩

/-- A summary of counts whose sum fits into 64 bits has one entry for each cutoff, in their order.
The entry takes the least number of the largest counts whose sum is the share of the cutoff in
exact numbers, and the last of them as its smallest count; of counts that are all zero it takes
none. In words of 128 bits the entries are the same, and no sum or product passes the words. -/
theorem coverage_is_exact {calls : List Call} {cutoffs : List UInt32} {ranked : List Count}
    (hsum : Count.exactSum (calls.filterMap Call.count?) < UInt64.size)
    (hcutoffs : ∀ cutoff ∈ cutoffs, cutoff.toNat ≤ cutoffScale)
    (hranked : Count.Ranks ranked (calls.filterMap Call.count?)) :
    ∃ x, (ofCalls calls).build cutoffs = .ok x ∧
      x.coverage.map Coverage.cutoff = cutoffs ∧
      (∀ e ∈ x.coverage,
        if Count.exactSum ranked = 0 then e.minCount = 0 ∧ e.numCounts = 0
        else e.IsLeast ranked) ∧
      (∀ e ∈ x.coverage, Coverage.ofCountsInWords ranked x.totalCount e.cutoff = e) ∧
      (∀ cutoff ∈ cutoffs, cutoff.toNat * Count.exactSum ranked < 2 ^ 128) ∧
      ∀ n, Count.exactSum (ranked.take n) * cutoffScale < 2 ^ 128 := by
  obtain ⟨x, hx, htotal, hcoverage⟩ := build_of_fits hsum hcutoffs hranked
  rw [← Count.exactSum_of_perm hranked.perm] at hsum
  refine ⟨x, hx, ?_, fun e he => ?_, fun e he => ?_, fun cutoff hmem => ?_,
    Coverage.scaled_lt hsum⟩
  · simp [hcoverage, Function.comp_def, Coverage.cutoff_ofCounts]
  · rw [hcoverage] at he
    obtain ⟨cutoff, hmem, rfl⟩ := List.mem_map.1 he
    split
    · rename_i hzero
      have hnone : x.totalCount = 0 := UInt64.toNat_inj.1 (htotal.trans hzero)
      rw [hnone]
      exact ⟨rfl, rfl⟩
    · rename_i hpos
      refine Coverage.isLeast_ofCounts htotal (fun hnone => hpos ?_) (hcutoffs cutoff hmem)
      rw [← htotal, hnone]
      rfl
  · rw [hcoverage] at he
    obtain ⟨cutoff, -, rfl⟩ := List.mem_map.1 he
    rw [Coverage.cutoff_ofCounts]
    exact Coverage.ofCountsInWords_eq htotal
  · have hle := Nat.mul_le_mul_right (Count.exactSum ranked) (hcutoffs cutoff hmem)
    simp only [UInt64.size] at hsum
    simp only [cutoffScale] at hle
    omega

/-- Two counts of half the largest sum, and a function between them. -/
def halves : List Call :=
  [.count 0x7fffffffffffffff, .function 5, .count 1, .count 0x7fffffffffffffff]

/-- One of the two halves is not half of the whole, as there is one more sample, which both of
them leave out. -/
theorem halves_are_covered :
    ∃ x, (ofCalls halves).build [500000, 0, 500000, 1000000] = .ok x ∧
      x.coverage.map Coverage.cutoff = [500000, 0, 500000, 1000000] ∧
      x.coverage.map Coverage.numCounts = [2, 1, 2, 3] ∧
      ∀ e ∈ x.coverage, e.IsLeast [0x7fffffffffffffff, 0x7fffffffffffffff, 1] := by
  have hsum : Count.exactSum (halves.filterMap Call.count?) < UInt64.size := by decide
  have hscale : ∀ cutoff ∈ ([500000, 0, 500000, 1000000] : List UInt32),
      cutoff.toNat ≤ cutoffScale := by simp [cutoffScale]
  have hranked : Count.Ranks [0x7fffffffffffffff, 0x7fffffffffffffff, 1]
      (halves.filterMap Call.count?) := ⟨by decide, by decide⟩
  obtain ⟨x, hbuild, htotal, hcoverage⟩ := build_of_fits hsum hscale hranked
  obtain ⟨_, hx, hcutoffs, hexact, -⟩ := coverage_is_exact hsum hscale hranked
  cases hbuild.symm.trans hx
  have hwhole : x.totalCount = 0xffffffffffffffff := UInt64.toNat_inj.1 htotal
  refine ⟨x, hbuild, hcutoffs, ?_, fun e he => ?_⟩
  · rw [hcoverage, hwhole]
    decide
  · have hleast := hexact e he
    rwa [if_neg (by decide)] at hleast

end SummaryBuilder

end SamplingProfile
