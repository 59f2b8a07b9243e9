-- What the entries of a summary say of the counts by their values. An entry takes the largest
-- counts one after the other, so of counts that are equal it may take some and leave others. Its
-- smallest count parts them all the same: those above it do not cover the share, and with those
-- equal to it they do. Entries for greater shares take more counts, down to smaller ones.
import SamplingProfile.Proofs.Summary.Coverage
import SamplingProfile.Proofs.Summary.Outcome

namespace SamplingProfile

/-! ## Sums of some of the counts -/

namespace Count

theorem exactSum_filter_le (keep : Count → Bool) (counts : List Count) :
    exactSum (counts.filter keep) ≤ exactSum counts := by
  induction counts with
  | nil => simp
  | cons count counts ih =>
    rw [List.filter_cons]
    split <;> simp only [exactSum_cons] <;> omega

theorem exactSum_eq_zero_iff {counts : List Count} :
    exactSum counts = 0 ↔ ∀ n ∈ counts, n = 0 := by
  induction counts with
  | nil => simp
  | cons count counts ih =>
    rw [exactSum_cons, Nat.add_eq_zero_iff, ih, List.forall_mem_cons, ← UInt64.toNat_inj]
    rfl

/-- A count that is the threshold of a share of some counts, in millionths: it is one of them, those
that are at least as large cover the share, and those that are larger do not. -/
structure IsThreshold (counts : List Count) (share : Nat) (t : Count) : Prop where
  pos : 1 ≤ t
  mem : t ∈ counts
  covers : share * exactSum counts ≤ exactSum (counts.filter (t ≤ ·)) * cutoffScale
  lacks : 0 < share → exactSum (counts.filter (t < ·)) * cutoffScale < share * exactSum counts

theorem IsThreshold.of_perm {counts counts' : List Count} {share : Nat} {t : Count}
    (h : IsThreshold counts share t) (hperm : counts.Perm counts') :
    IsThreshold counts' share t where
  pos := h.pos
  mem := hperm.mem_iff.1 h.mem
  covers := by
    rw [← exactSum_of_perm hperm, ← exactSum_of_perm (hperm.filter _)]
    exact h.covers
  lacks hshare := by
    rw [← exactSum_of_perm hperm, ← exactSum_of_perm (hperm.filter _)]
    exact h.lacks hshare

end Count

/-! ## One entry -/

namespace Coverage

/-- The counts that an entry takes before its last one, and those that it leaves. Without the last
one it would lack some of its share, unless it takes no other. -/
structure Parts (ranked : List Count) (e : Coverage) (larger smaller : List Count) : Prop where
  ranked_eq : ranked = larger ++ e.minCount :: smaller
  numCounts : e.numCounts = larger.length + 1
  le_larger : ∀ n ∈ larger, e.minCount ≤ n
  smaller_le : ∀ n ∈ smaller, n ≤ e.minCount
  covers : e.cutoff.toNat * Count.exactSum ranked
    ≤ (Count.exactSum larger + e.minCount.toNat) * cutoffScale
  lacks : larger ≠ [] →
    Count.exactSum larger * cutoffScale < e.cutoff.toNat * Count.exactSum ranked

variable {ranked larger smaller : List Count} {e e' : Coverage}

theorem IsLeast.parts (h : e.IsLeast ranked) (hranked : ranked.Pairwise fun a b => b ≤ a) :
    ∃ larger smaller, e.Parts ranked larger smaller := by
  obtain ⟨hlt, hlast⟩ := List.getElem?_eq_some_iff.1 h.smallest
  have hpos := h.pos
  have hlength : (ranked.take (e.numCounts - 1)).length = e.numCounts - 1 := by
    rw [List.length_take]
    omega
  have heq : ranked = ranked.take (e.numCounts - 1) ++ e.minCount :: ranked.drop e.numCounts := by
    have hdrop := List.drop_eq_getElem_cons hlt
    rw [hlast, Nat.sub_add_cancel hpos] at hdrop
    rw [← hdrop, List.take_append_drop]
  generalize ranked.take (e.numCounts - 1) = larger at heq hlength
  generalize ranked.drop e.numCounts = smaller at heq
  have hnum : e.numCounts = larger.length + 1 := by omega
  rw [heq] at hranked
  obtain ⟨-, hbehind, hcross⟩ := List.pairwise_append.1 hranked
  refine ⟨larger, smaller, heq, hnum, fun n hn => hcross n hn _ List.mem_cons_self,
    (List.pairwise_cons.1 hbehind).1, ?_, fun hne => ?_⟩
  · have htake : ranked.take e.numCounts = larger ++ [e.minCount] := by
      rw [heq, hnum, List.take_length_add_append]
      rfl
    simpa [htake] using h.covers
  · have htake : ranked.take larger.length = larger := by
      rw [heq]
      exact List.take_left
    have hleast := h.least larger.length (List.length_pos_iff.2 hne) (by omega)
    rwa [htake] at hleast

/-- The counts from the last one on that an entry takes are not larger than that one. -/
theorem Parts.le_minCount (h : e.Parts ranked larger smaller) :
    ∀ n ∈ e.minCount :: smaller, n ≤ e.minCount :=
  List.forall_mem_cons.2 ⟨UInt64.le_refl _, h.smaller_le⟩

/-- Counts of zero cover nothing, so an entry never ends with one. -/
theorem Parts.minCount_ne_zero (h : e.Parts ranked larger smaller)
    (htotal : Count.exactSum ranked ≠ 0) : e.minCount ≠ 0 := by
  intro hzero
  have hnone : e.minCount.toNat = 0 := by
    rw [hzero]
    rfl
  by_cases hne : larger = []
  · apply htotal
    rw [Count.exactSum_eq_zero_iff, h.ranked_eq, hne]
    intro n hn
    have hle := UInt64.le_iff_toNat_le.1 (h.le_minCount n hn)
    rw [hnone] at hle
    exact UInt64.toNat_inj.1 (Nat.le_zero.1 hle)
  · have hlacks := h.lacks hne
    have hcovers := h.covers
    rw [hnone, Nat.add_zero] at hcovers
    omega

/-- The smallest count that an entry takes is the threshold of its share. -/
theorem Parts.isThreshold (h : e.Parts ranked larger smaller)
    (htotal : Count.exactSum ranked ≠ 0) : e.minCount.IsThreshold ranked e.cutoff.toNat where
  pos := by
    have hne := h.minCount_ne_zero htotal
    rw [UInt64.le_iff_toNat_le, UInt64.toNat_one]
    rw [Ne, ← UInt64.toNat_inj, UInt64.toNat_zero] at hne
    omega
  mem := by
    rw [h.ranked_eq]
    simp
  covers := by
    have hkept : larger.filter (e.minCount ≤ ·) = larger := by
      rw [List.filter_eq_self]
      exact fun n hn => decide_eq_true (h.le_larger n hn)
    have hsum : Count.exactSum larger + e.minCount.toNat
        ≤ Count.exactSum (ranked.filter (e.minCount ≤ ·)) := by
      rw [h.ranked_eq, List.filter_append, hkept, List.filter_cons]
      simp
    exact Nat.le_trans h.covers (Nat.mul_le_mul_right cutoffScale hsum)
  lacks hshare := by
    have hnone : (e.minCount :: smaller).filter (e.minCount < ·) = [] := by
      rw [List.filter_eq_nil_iff]
      intro n hn
      rw [decide_eq_true_iff, UInt64.not_lt]
      exact h.le_minCount n hn
    have hsum : Count.exactSum (ranked.filter (e.minCount < ·)) ≤ Count.exactSum larger := by
      rw [h.ranked_eq, List.filter_append, hnone, List.append_nil]
      exact Count.exactSum_filter_le _ larger
    have hscaled := Nat.mul_le_mul_right cutoffScale hsum
    by_cases hne : larger = []
    · have hall := Nat.mul_pos hshare (Nat.pos_of_ne_zero htotal)
      rw [hne, Count.exactSum_nil, Nat.zero_mul] at hscaled
      omega
    · exact Nat.lt_of_le_of_lt hscaled (h.lacks hne)

/-! ## Two entries -/

/-- Of two entries the one for the greater share takes no fewer counts. -/
theorem IsLeast.numCounts_le (h : e.IsLeast ranked) (h' : e'.IsLeast ranked)
    (hcutoff : e.cutoff.toNat ≤ e'.cutoff.toNat) : e.numCounts ≤ e'.numCounts := by
  by_contra hlt
  have hleast := h.least e'.numCounts h'.pos (by omega)
  have hcovers := h'.covers
  have hshares := Nat.mul_le_mul_right (Count.exactSum ranked) hcutoff
  omega

/-- The more counts an entry takes, the smaller is the last of them. -/
theorem IsLeast.minCount_le (h : e.IsLeast ranked) (h' : e'.IsLeast ranked)
    (hranked : ranked.Pairwise fun a b => b ≤ a) (hle : e.numCounts ≤ e'.numCounts) :
    e'.minCount ≤ e.minCount := by
  obtain ⟨hlt, hlast⟩ := List.getElem?_eq_some_iff.1 h.smallest
  obtain ⟨hlt', hlast'⟩ := List.getElem?_eq_some_iff.1 h'.smallest
  rcases Nat.lt_or_eq_of_le hle with hfewer | heq
  · rw [← hlast, ← hlast']
    have hpos := h.pos
    exact List.pairwise_iff_getElem.1 hranked _ _ hlt hlt' (by omega)
  · simp only [heq] at hlast
    rw [← hlast, ← hlast']
    exact UInt64.le_refl _

/-! ## The ends -/

/-- An entry that asks for nothing takes the largest count. -/
theorem Parts.of_nothing (h : e.Parts ranked larger smaller) (hcutoff : e.cutoff.toNat = 0) :
    e.numCounts = 1 ∧ e.minCount = Count.largest ranked := by
  have hnone : larger = [] := by
    by_contra hne
    have hlacks := h.lacks hne
    rw [hcutoff, Nat.zero_mul] at hlacks
    omega
  subst hnone
  refine ⟨h.numCounts, (Count.largest_eq_of_mem ?_ fun n hn => ?_).symm⟩
  · rw [h.ranked_eq]
    exact List.mem_cons_self
  · rw [h.ranked_eq] at hn
    exact h.le_minCount n hn

/-- An entry that asks for all takes the counts that are not zero. -/
theorem Parts.of_all (h : e.Parts ranked larger smaller) (htotal : Count.exactSum ranked ≠ 0)
    (hcutoff : e.cutoff.toNat = cutoffScale) :
    e.numCounts = ranked.countP (· ≠ 0) ∧ ∀ n ∈ ranked, n ≠ 0 → e.minCount ≤ n := by
  have hzeros : ∀ n ∈ smaller, n = 0 := by
    have hcovers := h.covers
    rw [hcutoff, Nat.mul_comm] at hcovers
    have hall := Nat.le_of_mul_le_mul_right hcovers (by decide)
    rw [h.ranked_eq, Count.exactSum_append, Count.exactSum_cons] at hall
    exact Count.exactSum_eq_zero_iff.1 (by omega)
  have hlast := h.minCount_ne_zero htotal
  have hlarger : ∀ n ∈ larger, n ≠ 0 := by
    rintro n hn rfl
    have hle := UInt64.le_iff_toNat_le.1 (h.le_larger 0 hn)
    exact hlast (UInt64.toNat_inj.1 (Nat.le_zero.1 hle))
  rw [h.ranked_eq]
  constructor
  · have hcount : larger.countP (· ≠ 0) = larger.length := by
      rw [List.countP_eq_length]
      simpa using hlarger
    have hrest : smaller.countP (· ≠ 0) = 0 := by
      rw [List.countP_eq_zero]
      simpa using hzeros
    rw [h.numCounts, List.countP_append, List.countP_cons, hcount, hrest]
    simp [hlast]
  · intro n hn hne
    rcases List.mem_append.1 hn with hn | hn
    · exact h.le_larger n hn
    · rcases List.mem_cons.1 hn with rfl | hn
      · exact UInt64.le_refl _
      · exact absurd (hzeros n hn) hne

end Coverage

/-! ## What a summary covers -/

namespace Summary

theorem hotThreshold?_eq_none_iff {x : Summary} {cutoff : UInt32} :
    x.hotThreshold? cutoff = none ↔ cutoff ∉ x.coverage.map Coverage.cutoff := by
  simp [hotThreshold?]

theorem hotThreshold?_eq_some {x : Summary} {cutoff : UInt32} {t : Count}
    (h : x.hotThreshold? cutoff = some t) :
    ∃ e ∈ x.coverage, e.cutoff = cutoff ∧ e.minCount = t := by
  obtain ⟨e, hfound, ht⟩ := Option.map_eq_some_iff.1 h
  exact ⟨e, List.mem_of_find?_eq_some hfound, by simpa using List.find?_some hfound, ht⟩

namespace IsOf

variable {x : Summary} {counts entryCounts ranked : List Count} {cutoffs : List UInt32}
  {e e' : Coverage}

theorem map_cutoff (h : x.IsOf counts entryCounts cutoffs) :
    x.coverage.map Coverage.cutoff = cutoffs := by
  simp [h.coverage, Function.comp_def, Coverage.cutoff_ofCounts]

theorem coverage_mem (h : x.IsOf counts entryCounts cutoffs) (hranked : Count.Ranks ranked counts)
    (he : e ∈ x.coverage) :
    ∃ cutoff, cutoff.toNat ≤ cutoffScale ∧ e = Coverage.ofCounts ranked x.totalCount cutoff := by
  rw [h.coverage, (Count.ranks_mergeSort counts).eq_of_perm hranked (.refl counts)] at he
  obtain ⟨cutoff, hmem, rfl⟩ := List.mem_map.1 he
  exact ⟨cutoff, h.valid cutoff hmem, rfl⟩

/-- Of counts that are all zero an entry takes none. -/
theorem takes_none (h : x.IsOf counts entryCounts cutoffs) (htotal : Count.exactSum counts = 0)
    (he : e ∈ x.coverage) : e.minCount = 0 ∧ e.numCounts = 0 := by
  obtain ⟨cutoff, -, rfl⟩ := h.coverage_mem (Count.ranks_mergeSort counts) he
  have hnone : x.totalCount = 0 := UInt64.toNat_inj.1 (h.totalCount.trans htotal)
  rw [hnone]
  exact ⟨rfl, rfl⟩

/-- Of others it takes the largest, and no more of them than it must. -/
theorem isLeast (h : x.IsOf counts entryCounts cutoffs) (hranked : Count.Ranks ranked counts)
    (htotal : Count.exactSum counts ≠ 0) (he : e ∈ x.coverage) : e.IsLeast ranked := by
  obtain ⟨cutoff, hcutoff, rfl⟩ := h.coverage_mem hranked he
  have hranks := h.totalCount.trans (Count.exactSum_of_perm hranked.perm).symm
  refine Coverage.isLeast_ofCounts hranks (fun hnone => htotal ?_) hcutoff
  rw [← h.totalCount, hnone]
  rfl

theorem isThreshold (h : x.IsOf counts entryCounts cutoffs) (htotal : Count.exactSum counts ≠ 0)
    (he : e ∈ x.coverage) : e.minCount.IsThreshold counts e.cutoff.toNat := by
  have hranked := Count.ranks_mergeSort counts
  obtain ⟨larger, smaller, hparts⟩ := (h.isLeast hranked htotal he).parts hranked.descending
  rw [← Count.exactSum_of_perm hranked.perm] at htotal
  exact (hparts.isThreshold htotal).of_perm hranked.perm

theorem monotone (h : x.IsOf counts entryCounts cutoffs) (he : e ∈ x.coverage)
    (he' : e' ∈ x.coverage) (hcutoff : e.cutoff.toNat ≤ e'.cutoff.toNat) :
    e.numCounts ≤ e'.numCounts ∧ e'.minCount ≤ e.minCount := by
  by_cases htotal : Count.exactSum counts = 0
  · obtain ⟨hmin, hnum⟩ := h.takes_none htotal he
    obtain ⟨hmin', hnum'⟩ := h.takes_none htotal he'
    rw [hmin, hnum, hmin', hnum']
    exact ⟨Nat.le_refl 0, UInt64.le_refl 0⟩
  · have hranked := Count.ranks_mergeSort counts
    have hleast := h.isLeast hranked htotal he
    have hleast' := h.isLeast hranked htotal he'
    have hle := hleast.numCounts_le hleast' hcutoff
    exact ⟨hle, hleast.minCount_le hleast' hranked.descending hle⟩

theorem within (h : x.IsOf counts entryCounts cutoffs) (he : e ∈ x.coverage) :
    e.numCounts ≤ x.numCounts ∧ e.minCount ≤ x.maxCount := by
  rw [h.numCounts, h.maxCount]
  by_cases htotal : Count.exactSum counts = 0
  · obtain ⟨hmin, hnum⟩ := h.takes_none htotal he
    rw [hmin, hnum]
    exact ⟨Nat.zero_le _, UInt64.le_iff_toNat_le.2 (Nat.zero_le _)⟩
  · have hranked := Count.ranks_mergeSort counts
    have hlength := (h.isLeast hranked htotal he).le_length
    rw [hranked.perm.length_eq] at hlength
    exact ⟨hlength, Count.le_largest counts _ (h.isThreshold htotal he).mem⟩

/-- The entry of an empty share is that of the largest count. -/
theorem of_nothing (h : x.IsOf counts entryCounts cutoffs) (htotal : Count.exactSum counts ≠ 0)
    (he : e ∈ x.coverage) (hcutoff : e.cutoff = 0) :
    e = { cutoff := 0, minCount := x.maxCount, numCounts := 1 } := by
  have hranked := Count.ranks_mergeSort counts
  obtain ⟨larger, smaller, hparts⟩ := (h.isLeast hranked htotal he).parts hranked.descending
  have hzero : e.cutoff.toNat = 0 := by
    rw [hcutoff]
    rfl
  obtain ⟨hnum, hmin⟩ := hparts.of_nothing hzero
  rw [Count.largest_of_perm hranked.perm, ← h.maxCount] at hmin
  rw [← hcutoff, ← hmin, ← hnum]

/-- The entry of the whole takes the counts that are not zero. -/
theorem of_all (h : x.IsOf counts entryCounts cutoffs) (htotal : Count.exactSum counts ≠ 0)
    (he : e ∈ x.coverage) (hcutoff : e.cutoff.toNat = cutoffScale) :
    e.numCounts = counts.countP (· ≠ 0) ∧ e.minCount ∈ counts ∧ e.minCount ≠ 0 ∧
      ∀ n ∈ counts, n ≠ 0 → e.minCount ≤ n := by
  have hranked := Count.ranks_mergeSort counts
  obtain ⟨larger, smaller, hparts⟩ := (h.isLeast hranked htotal he).parts hranked.descending
  have hmem := (h.isThreshold htotal he).mem
  rw [← Count.exactSum_of_perm hranked.perm] at htotal
  obtain ⟨hnum, hmin⟩ := hparts.of_all htotal hcutoff
  rw [hranked.perm.countP_eq] at hnum
  exact ⟨hnum, hmem, hparts.minCount_ne_zero htotal,
    fun n hn => hmin n (hranked.perm.mem_iff.2 hn)⟩

end IsOf

end Summary

namespace SummaryBuilder

variable {calls : List Call} {cutoffs : List UInt32}

/-- A summary of counts that are not all zero has a hot threshold for each of its cutoffs and for no
other. It is one of the counts and not zero; the counts that are at least as large cover the share
of the cutoff in exact numbers, and those that are larger do not, unless it asks for nothing. -/
theorem hot_threshold_is_exact
    (hpos : 0 < Count.exactSum (calls.filterMap Call.count?))
    (hsum : Count.exactSum (calls.filterMap Call.count?) < UInt64.size)
    (hcutoffs : ∀ cutoff ∈ cutoffs, cutoff.toNat ≤ cutoffScale) :
    ∃ x, (ofCalls calls).build cutoffs = .ok x ∧
      ∀ cutoff, (x.hotThreshold? cutoff = none ↔ cutoff ∉ cutoffs) ∧
        ∀ t, x.hotThreshold? cutoff = some t →
          t.IsThreshold (calls.filterMap Call.count?) cutoff.toNat := by
  have hbuild := (holds_ofCalls calls).build_eq cutoffs
  obtain ⟨x, hx, -⟩ := Summary.ofCounts_of_fits (calls.filterMap Call.entryCount?)
    (Nat.le_sub_one_of_lt hsum) hcutoffs
  have hof := Summary.isOf_of_ofCounts hx
  refine ⟨x, hbuild.trans hx, fun cutoff => ⟨?_, fun t ht => ?_⟩⟩
  · rw [Summary.hotThreshold?_eq_none_iff, hof.map_cutoff]
  · obtain ⟨e, he, rfl, rfl⟩ := Summary.hotThreshold?_eq_some ht
    exact hof.isThreshold (Nat.ne_of_gt hpos) he

/-- Calls with a function, a count of zero and three equal counts, in no order. -/
def withTies : List Call := [.count 3, .count 0, .function 2, .count 3, .count 1, .count 3]

/-- Half of the ten samples needs two of the three equal counts, so these are the threshold. -/
theorem withTies_have_threshold :
    ∃ x, (ofCalls withTies).build [1000000, 500000, 0, 500000] = .ok x ∧
      x.hotThreshold? 123 = none ∧ x.hotThreshold? 500000 = some 3 := by
  have hpos : 0 < Count.exactSum (withTies.filterMap Call.count?) := by decide
  have hsum : Count.exactSum (withTies.filterMap Call.count?) < UInt64.size := by decide
  have hscale : ∀ cutoff ∈ ([1000000, 500000, 0, 500000] : List UInt32),
      cutoff.toNat ≤ cutoffScale := by simp [cutoffScale]
  obtain ⟨x, hx, hthreshold⟩ := hot_threshold_is_exact hpos hsum hscale
  obtain ⟨hnone, hsome⟩ := hthreshold 500000
  refine ⟨x, hx, (hthreshold 123).1.2 (by decide), ?_⟩
  cases ht : x.hotThreshold? 500000 with
  | none => exact absurd (by decide) (hnone.1 ht)
  | some t =>
    obtain ⟨hne, hmem, -, hlacks⟩ := hsome t ht
    simp only [withTies, List.filterMap_cons, Call.count?, List.filterMap_nil, List.mem_cons,
      List.not_mem_nil, or_false] at hmem
    rcases hmem with rfl | rfl | rfl | rfl | rfl
    · rfl
    · exact absurd hne (by decide)
    · rfl
    · exact absurd (hlacks (by decide)) (by decide)
    · rfl

/-- The entries of a summary follow their cutoffs: the greater the share, the more counts it takes
and the smaller is the last of them. None takes more counts than there are, or has a smallest count
above the largest. If not all counts are zero, a share of nothing takes the largest count alone, and
the whole takes the counts that are not zero, down to the smallest of these. -/
theorem coverage_is_monotone {x : Summary} (h : (ofCalls calls).build cutoffs = .ok x) :
    (∀ e ∈ x.coverage, ∀ e' ∈ x.coverage, e.cutoff ≤ e'.cutoff →
      e.numCounts ≤ e'.numCounts ∧ e'.minCount ≤ e.minCount) ∧
    (∀ e ∈ x.coverage, e.numCounts ≤ x.numCounts ∧ e.minCount ≤ x.maxCount) ∧
    (0 < x.totalCount → ∀ e ∈ x.coverage,
      (e.cutoff = 0 → e = { cutoff := 0, minCount := x.maxCount, numCounts := 1 }) ∧
      (e.cutoff = 1000000 →
        e.numCounts = (calls.filterMap Call.count?).countP (· ≠ 0) ∧
        e.minCount ∈ calls.filterMap Call.count? ∧ e.minCount ≠ 0 ∧
        ∀ n ∈ calls.filterMap Call.count?, n ≠ 0 → e.minCount ≤ n)) := by
  rw [(holds_ofCalls calls).build_eq] at h
  have hof := Summary.isOf_of_ofCounts h
  refine ⟨fun e he e' he' hle => hof.monotone he he' (UInt32.le_iff_toNat_le.1 hle),
    fun e he => hof.within he, fun hpos e he => ?_⟩
  have htotal : Count.exactSum (calls.filterMap Call.count?) ≠ 0 := by
    rw [← hof.totalCount]
    exact Nat.ne_of_gt (UInt64.lt_iff_toNat_lt.1 hpos)
  exact ⟨hof.of_nothing htotal he, fun hcutoff => hof.of_all htotal he (by rw [hcutoff]; rfl)⟩

/-- The four counts that are not zero cover the whole. -/
theorem withTies_are_monotone :
    ∃ x, (ofCalls withTies).build [1000000, 500000, 0, 500000] = .ok x ∧
      (∀ e ∈ x.coverage, ∀ e' ∈ x.coverage, e.cutoff ≤ e'.cutoff → e.numCounts ≤ e'.numCounts) ∧
      ∀ e ∈ x.coverage, e.cutoff = 1000000 → e.numCounts = 4 ∧ e.minCount ≤ 1 := by
  have hsum : Count.exactSum (withTies.filterMap Call.count?) < UInt64.size := by decide
  have hscale : ∀ cutoff ∈ ([1000000, 500000, 0, 500000] : List UInt32),
      cutoff.toNat ≤ cutoffScale := by simp [cutoffScale]
  obtain ⟨x, hx, htotal, -⟩ := build_of_fits hsum hscale (Count.ranks_mergeSort _)
  rw [Count.exactSum_of_perm (Count.ranks_mergeSort _).perm] at htotal
  have hten : x.totalCount = 10 := UInt64.toNat_inj.1 htotal
  obtain ⟨hmonotone, -, hends⟩ := coverage_is_monotone hx
  refine ⟨x, hx, fun e he e' he' hle => (hmonotone e he e' he' hle).1, fun e he hcutoff => ?_⟩
  obtain ⟨-, hall⟩ := hends (by rw [hten]; decide) e he
  obtain ⟨hnum, -, -, hmin⟩ := hall hcutoff
  exact ⟨hnum, hmin 1 (by decide) (by decide)⟩

end SummaryBuilder

end SamplingProfile
