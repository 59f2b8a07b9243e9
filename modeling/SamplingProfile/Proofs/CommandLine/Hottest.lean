-- The list of the functions with the largest counts, whatever heap found them. After every
-- function the heap holds as many as it may, and none of those that it gave up or turned away is
-- hotter than one that it holds; so at the end of the store no function that is left out is hotter
-- than one that is listed. Which of several functions of one count are listed is up to the heap,
-- but where one function is asked for no choice is left: it is the first of them in the order of
-- the names.
import Mathlib.Data.List.Induction
import SamplingProfile.CommandLine.Show
import SamplingProfile.Proofs.Store.Entries
import SamplingProfile.Proofs.Store.SummaryCounts

namespace SamplingProfile

namespace CommandLine

/-! ## One more function -/

theorem count_le_of_greatest {f : HotFunction} {fs : List HotFunction} (h : Greatest f fs) :
    ∀ g ∈ fs, f.count ≤ g.count :=
  fun g hg => HotFunction.isLE_compare_iff.1 (h.2 g hg)

/-- What becomes of a heap of `n` functions at most when one more is offered to it: there is room
for it, or it takes the place of a coldest one, or it is turned away because it is no hotter than
any of them. -/
theorem offer_cases (heap : Heap HotFunction) {n : Nat} {kept : heap.State}
    (hkept : (heap.values kept).length ≤ n) (f : FunctionProfile) :
    ((heap.values kept).length < n ∧
      (heap.values (offer heap n kept f)).Perm (.ofFunction f :: heap.values kept)) ∨
    ((heap.values kept).length = n ∧ ∃ coldest rest,
      (heap.values kept).Perm (coldest :: rest) ∧ (∀ g ∈ rest, coldest.count ≤ g.count) ∧
      coldest.count < f.maxCount ∧
      (heap.values (offer heap n kept f)).Perm (.ofFunction f :: rest)) ∨
    ((heap.values kept).length = n ∧ offer heap n kept f = kept ∧
      ∀ g ∈ heap.values kept, f.maxCount ≤ g.count) := by
  unfold offer Heap.size
  by_cases hn : n = 0
  · have hnil : heap.values kept = [] := List.length_eq_zero_iff.1 (by omega)
    refine .inr (.inr ⟨by omega, if_pos hn, ?_⟩)
    simp [hnil]
  by_cases hfull : (heap.values kept).length = n
  · have hne : heap.values kept ≠ [] := by
      intro hnil
      simp [hnil] at hfull
      omega
    obtain ⟨top, htop⟩ := Option.isSome_iff_exists.1 (heap.isSome_peek? kept hne)
    obtain ⟨htop_mem, -⟩ := heap.greatest_of_peek? htop
    have htop_le := count_le_of_greatest (heap.greatest_of_peek? htop)
    obtain ⟨coldest, hcoldest, hperm⟩ := heap.perm_pop kept hne
    have hle := count_le_of_greatest hcoldest
    -- the function at hand and the one that is given up may differ, but not in their counts
    have hsame : coldest.count = top.count :=
      UInt64.le_antisymm (hle top htop_mem) (htop_le coldest hcoldest.1)
    simp only [if_neg hn, if_pos hfull, htop, Option.any_some, decide_eq_true_eq]
    by_cases hlt : top.count < (HotFunction.ofFunction f).count
    · rw [if_pos hlt]
      refine .inr (.inl ⟨hfull, coldest, _, hperm, ?_, ?_, heap.perm_push _ _⟩)
      · intro g hg
        exact hle g (hperm.mem_iff.2 (List.mem_cons_of_mem _ hg))
      · rw [hsame]
        exact hlt
    · rw [if_neg hlt]
      refine .inr (.inr ⟨hfull, rfl, ?_⟩)
      intro g hg
      exact UInt64.le_trans (UInt64.not_lt.1 hlt) (htop_le g hg)
  · simp only [if_neg hn, if_neg hfull]
    exact .inl ⟨by omega, heap.perm_push _ _⟩

/-! ## What the heap holds -/

/-- A heap of `n` functions at most, after the functions `seen` were offered to it: it holds as many
as it may, and with those that are gone they are all, none of them hotter than one that it holds. -/
structure Holds (n : Nat) (kept : List HotFunction) (seen : List FunctionProfile) : Prop where
  length : kept.length = min n seen.length
  split : ∃ gone, (kept ++ gone).Perm (seen.map HotFunction.ofFunction) ∧
    ∀ f ∈ kept, ∀ g ∈ gone, g.count ≤ f.count

section Holds

variable {n : Nat} {kept kept' rest : List HotFunction} {seen : List FunctionProfile}
  {coldest : HotFunction}

theorem Holds.of_perm (h : Holds n kept seen) (hperm : kept'.Perm kept) : Holds n kept' seen := by
  obtain ⟨gone, hall, hle⟩ := h.split
  refine ⟨hperm.length_eq.trans h.length, gone, (hperm.append_right gone).trans hall, ?_⟩
  intro f hf
  exact hle f (hperm.mem_iff.1 hf)

theorem perm_map_concat {gone kept gone' kept' : List HotFunction} {f : FunctionProfile}
    (hall : (kept ++ gone).Perm (seen.map HotFunction.ofFunction))
    (hmore : (kept' ++ gone').Perm (.ofFunction f :: (kept ++ gone))) :
    (kept' ++ gone').Perm ((seen ++ [f]).map HotFunction.ofFunction) := by
  rw [List.map_append]
  exact hmore.trans ((hall.cons _).trans (List.perm_append_singleton _ _).symm)

theorem Holds.add (h : Holds n kept seen) (hroom : kept.length < n) (f : FunctionProfile) :
    Holds n (.ofFunction f :: kept) (seen ++ [f]) := by
  obtain ⟨gone, hall, -⟩ := h.split
  have hlength := h.length
  have htotal := hall.length_eq
  rw [List.length_append, List.length_map] at htotal
  have hnil : gone = [] := List.length_eq_zero_iff.1 (by omega)
  subst hnil
  refine ⟨?_, [], perm_map_concat hall (List.Perm.refl _), fun _ _ _ h => nomatch h⟩
  rw [List.length_cons, List.length_append, List.length_singleton]
  omega

theorem Holds.replace (h : Holds n (coldest :: rest) seen) (hfull : rest.length + 1 = n)
    (hcold : ∀ g ∈ rest, coldest.count ≤ g.count) {f : FunctionProfile}
    (hlt : coldest.count < f.maxCount) : Holds n (.ofFunction f :: rest) (seen ++ [f]) := by
  obtain ⟨gone, hall, hle⟩ := h.split
  have hlength := h.length
  rw [List.length_cons] at hlength
  refine ⟨?_, coldest :: gone, perm_map_concat hall ?_, ?_⟩
  · rw [List.length_cons, List.length_append, List.length_singleton]
    omega
  · exact (List.perm_middle).cons _
  · intro g hg g' hg'
    have hg_cold : coldest.count ≤ g.count := by
      rcases List.mem_cons.1 hg with rfl | hg
      · exact UInt64.le_of_lt hlt
      · exact hcold g hg
    rcases List.mem_cons.1 hg' with rfl | hg'
    · exact hg_cold
    · exact UInt64.le_trans (hle coldest List.mem_cons_self g' hg') hg_cold

theorem Holds.turnAway (h : Holds n kept seen) (hfull : kept.length = n) {f : FunctionProfile}
    (hcold : ∀ g ∈ kept, f.maxCount ≤ g.count) : Holds n kept (seen ++ [f]) := by
  obtain ⟨gone, hall, hle⟩ := h.split
  have hlength := h.length
  refine ⟨?_, .ofFunction f :: gone, perm_map_concat hall List.perm_middle, ?_⟩
  · rw [List.length_append, List.length_singleton]
    omega
  · intro g hg g' hg'
    rcases List.mem_cons.1 hg' with rfl | hg'
    · exact hcold g hg
    · exact hle g hg g' hg'

/-- Where the kept functions are in order, none that was offered is hotter than the first. -/
theorem Holds.le_head {f : HotFunction} (h : Holds n (f :: rest) seen)
    (hrest : ∀ g ∈ rest, g.count ≤ f.count) : ∀ g ∈ seen, g.maxCount ≤ f.count := by
  obtain ⟨gone, hall, hcold⟩ := h.split
  intro g hg
  rcases List.mem_append.1 (hall.mem_iff.2 (List.mem_map_of_mem hg)) with hkept | hgone
  · rcases List.mem_cons.1 hkept with hfirst | hkept
    · rw [← hfirst]
      exact UInt64.le_refl _
    · exact hrest _ hkept
  · exact hcold f List.mem_cons_self _ hgone

end Holds

variable (heap : Heap HotFunction) (n : Nat)

/-- One more function keeps it so. -/
theorem Holds.offer {kept : heap.State} {seen : List FunctionProfile}
    (h : Holds n (heap.values kept) seen) (f : FunctionProfile) :
    Holds n (heap.values (offer heap n kept f)) (seen ++ [f]) := by
  have hkept : (heap.values kept).length ≤ n := by
    have := h.length
    omega
  obtain ⟨hroom, hafter⟩ | ⟨hfull, coldest, rest, hbefore, hcold, hlt, hafter⟩ |
    ⟨hfull, hafter, hcold⟩ := offer_cases heap hkept f
  · exact (h.add hroom f).of_perm hafter
  · have hlength := hbefore.length_eq
    rw [List.length_cons] at hlength
    exact ((h.of_perm hbefore.symm).replace (by omega) hcold hlt).of_perm hafter
  · rw [hafter]
    exact h.turnAway hfull hcold

theorem holds_foldl_offer (fs : List FunctionProfile) :
    Holds n (heap.values (fs.foldl (offer heap n) heap.empty)) fs := by
  induction fs using List.reverseRecOn with
  | nil =>
    rw [List.foldl_nil, heap.values_empty]
    exact ⟨by simp, [], by simp, by simp⟩
  | append_singleton fs f ih =>
    rw [List.foldl_append]
    exact ih.offer heap n f

theorem holds_hottest (s : Store) : Holds n (hottest heap n s) s.toList :=
  (holds_foldl_offer heap n s.toList).of_perm (heap.perm_ascending _)

/-! ## One function -/

/-- The first of some functions that none of them passes. -/
def Leads (f : FunctionProfile) (seen : List FunctionProfile) : Prop :=
  ∃ front back, seen = front ++ f :: back ∧ (∀ g ∈ front, g.maxCount < f.maxCount) ∧
    ∀ g ∈ back, g.maxCount ≤ f.maxCount

theorem Leads.le {f : FunctionProfile} {seen : List FunctionProfile} (h : Leads f seen) :
    ∀ g ∈ seen, g.maxCount ≤ f.maxCount := by
  obtain ⟨front, back, rfl, hfront, hback⟩ := h
  intro g hg
  rcases List.mem_append.1 hg with hg | hg
  · exact UInt64.le_of_lt (hfront g hg)
  · rcases List.mem_cons.1 hg with rfl | hg
    · exact UInt64.le_refl _
    · exact hback g hg

theorem leads_offer {kept : heap.State} {f : FunctionProfile} {seen : List FunctionProfile}
    (hkept : heap.values kept = [.ofFunction f]) (h : Leads f seen) (g : FunctionProfile) :
    ∃ f', heap.values (offer heap 1 kept g) = [.ofFunction f'] ∧ Leads f' (seen ++ [g]) := by
  have hlength : (heap.values kept).length = 1 := by rw [hkept]; rfl
  obtain ⟨hroom, -⟩ | ⟨-, coldest, rest, hbefore, -, hlt, hafter⟩ | ⟨-, hafter, hcold⟩ :=
    offer_cases heap (Nat.le_of_eq hlength) g
  · omega
  · rw [hkept, List.singleton_perm, List.cons.injEq] at hbefore
    obtain ⟨rfl, rfl⟩ := hbefore
    refine ⟨g, List.perm_singleton.1 hafter, seen, [], rfl, ?_, fun _ h => nomatch h⟩
    intro g' hg'
    exact UInt64.lt_of_le_of_lt (h.le g' hg') hlt
  · obtain ⟨front, back, rfl, hfront, hback⟩ := h
    refine ⟨f, by rw [hafter, hkept], front, back ++ [g], by simp, hfront, ?_⟩
    intro g' hg'
    rcases List.mem_append.1 hg' with hg' | hg'
    · exact hback g' hg'
    · obtain rfl := List.mem_singleton.1 hg'
      exact hcold (.ofFunction f) (by simp [hkept])

/-- A heap of one function ends with the first that none passes. -/
theorem leads_foldl_offer {fs : List FunctionProfile} (hfs : fs ≠ []) :
    ∃ f, heap.values (fs.foldl (offer heap 1) heap.empty) = [.ofFunction f] ∧ Leads f fs := by
  induction fs using List.reverseRecOn with
  | nil => exact absurd rfl hfs
  | append_singleton fs f ih =>
    rw [List.foldl_append]
    by_cases hnil : fs = []
    · subst hnil
      have hempty : (heap.values heap.empty).length ≤ 1 := by simp [heap.values_empty]
      have hfirst := offer_cases heap hempty f
      simp only [heap.values_empty, List.length_nil] at hfirst
      obtain ⟨-, hafter⟩ | ⟨habs, -⟩ | ⟨habs, -⟩ := hfirst
      · exact ⟨f, List.perm_singleton.1 hafter, [], [], rfl, by simp, by simp⟩
      · omega
      · omega
    · obtain ⟨g, hkept, hleads⟩ := ih hnil
      exact leads_offer heap hkept hleads f

/-! ## The list -/

/-- A list of the `n` hottest functions of a store: as many as there are of them, each listed once
with its own largest count, the hottest first, and none that is left out hotter than one that is
listed. A list of one has the first of those that are hottest, in the order of the names. The list
begins with the largest count of the summary. -/
structure ListsHottest (n : Nat) (s : Store) (listed : List HotFunction) : Prop where
  length : listed.length = min n s.size
  nodup : (listed.map (·.name)).Nodup
  own : ∀ f ∈ listed, ∃ g, s.get? f.name = some g ∧ f.count = g.maxCount
  descending : listed.Pairwise fun f g => g.count ≤ f.count
  leaves_no_hotter : ∀ name g, s.get? name = some g → name ∉ listed.map (·.name) →
    ∀ f ∈ listed, g.maxCount ≤ f.count
  first_of_one : n = 1 → ∀ f ∈ listed, ∀ name g, s.get? name = some g →
    g.maxCount ≤ f.count ∧ (g.maxCount = f.count → (compare f.name name).isLE)
  head_count : 0 < n → s.isEmpty = false → ∀ cutoffs x, s.summary cutoffs = .ok x →
    ∃ f, listed.head? = some f ∧ f.count = x.maxCount

section ListsHottest

variable {s : Store} {n : Nat} {listed : List HotFunction}

theorem Leads.compare_name {f : FunctionProfile} (h : Leads f s.toList) {name : String}
    {g : FunctionProfile} (hg : s.get? name = some g) (hcount : g.maxCount = f.maxCount) :
    (compare f.name name).isLE := by
  obtain rfl := Store.name_of_get? hg
  obtain ⟨front, back, hlist, hfront, -⟩ := h
  have hmem := Store.mem_toList_iff.2 hg
  have hordered := s.increasing_toList
  unfold Increasing at hordered
  rw [hlist, List.pairwise_map, List.pairwise_append, List.pairwise_cons] at hordered
  rw [hlist, List.mem_append, List.mem_cons] at hmem
  rcases hmem with hmem | rfl | hmem
  · have hlt := hfront g hmem
    rw [hcount] at hlt
    exact absurd hlt (UInt64.lt_irrefl _)
  · exact Std.ReflCmp.isLE_rfl
  · exact Ordering.isLE_of_eq_lt (hordered.2.1.1 g hmem)

/-- The largest count of a store is that of its hottest function. -/
theorem largest_sampleCounts {f : FunctionProfile} (hf : f ∈ s.toList)
    (hle : ∀ g ∈ s.toList, g.maxCount ≤ f.maxCount) :
    Count.largest s.sampleCounts = f.maxCount := by
  apply UInt64.le_antisymm
  · rcases List.mem_cons.1 (Count.largest_mem s.sampleCounts) with hzero | hmem
    · rw [hzero]
      exact UInt64.zero_le
    · obtain ⟨g, hg, hcount⟩ := List.mem_flatMap.1 hmem
      exact UInt64.le_trans (Count.le_largest _ _ hcount) (hle g hg)
  · rcases List.mem_cons.1 (Count.largest_mem f.sampleCounts) with hzero | hmem
    · rw [FunctionProfile.maxCount, hzero]
      exact UInt64.zero_le
    · exact Count.le_largest _ _ (List.mem_flatMap.2 ⟨f, hf, hmem⟩)

theorem maxCount_of_summary {cutoffs : List UInt32} {x : Summary}
    (hx : s.summary cutoffs = .ok x) : x.maxCount = Count.largest s.sampleCounts := by
  rw [Store.summary_eq] at hx
  exact (Summary.isOf_of_ofCounts hx).maxCount

/-- The functions of a store, each with its own largest count, are told apart by their names. -/
theorem mem_map_ofFunction_iff {f : HotFunction} :
    f ∈ s.toList.map .ofFunction ↔ ∃ g, s.get? f.name = some g ∧ f.count = g.maxCount := by
  rw [List.mem_map]
  constructor
  · rintro ⟨g, hg, rfl⟩
    exact ⟨g, Store.mem_toList_iff.1 hg, rfl⟩
  · rintro ⟨g, hg, hcount⟩
    refine ⟨g, Store.mem_toList_iff.2 ?_, ?_⟩
    · rwa [Store.name_of_get? hg]
    · rw [HotFunction.ofFunction, Store.name_of_get? hg, ← hcount]

theorem nodup_map_ofFunction (s : Store) :
    ((s.toList.map HotFunction.ofFunction).map (·.name)).Nodup := by
  rw [List.map_map]
  exact s.nodup_toList

theorem leads_hottest_one (heap : Heap HotFunction) (hne : s.toList ≠ []) :
    ∃ f, hottest heap 1 s = [.ofFunction f] ∧ Leads f s.toList := by
  obtain ⟨f, hkept, hleads⟩ := leads_foldl_offer heap hne
  have hperm := heap.perm_ascending (s.toList.foldl (offer heap 1) heap.empty)
  rw [hkept] at hperm
  exact ⟨f, List.perm_singleton.1 hperm, hleads⟩

theorem descending_hottest (heap : Heap HotFunction) (n : Nat) (s : Store) :
    (hottest heap n s).Pairwise fun f g => g.count ≤ f.count :=
  (heap.pairwise_ascending _).imp HotFunction.isLE_compare_iff.1

/-- One pass over a store lists its hottest functions, whatever heap is used. -/
theorem listsHottest_hottest (heap : Heap HotFunction) (n : Nat) (s : Store) :
    ListsHottest n s (hottest heap n s) := by
  have hholds := holds_hottest heap n s
  obtain ⟨gone, hall, hcold⟩ := hholds.split
  have hlength : (hottest heap n s).length = min n s.size := by
    rw [hholds.length, s.length_toList]
  have hown : ∀ f ∈ hottest heap n s, ∃ g, s.get? f.name = some g ∧ f.count = g.maxCount := by
    intro f hf
    exact mem_map_ofFunction_iff.1 (hall.mem_iff.1 (List.mem_append_left _ hf))
  refine ⟨hlength, ?nodup, hown, descending_hottest heap n s, ?leaves, ?first, ?head⟩
  case nodup =>
    have hnames := (hall.map (·.name)).nodup_iff.2 (nodup_map_ofFunction s)
    rw [List.map_append] at hnames
    exact (List.nodup_append.1 hnames).1
  case leaves =>
    intro name g hg hname f hf
    obtain rfl := Store.name_of_get? hg
    have hoffered := hall.mem_iff.2 (List.mem_map_of_mem (Store.mem_toList_iff.2 hg))
    -- what is not listed is gone
    rcases List.mem_append.1 hoffered with hlisted | hgone
    · exact absurd (List.mem_map_of_mem hlisted) hname
    · exact hcold f hf _ hgone
  case first =>
    rintro rfl f hf name g hg
    obtain rfl := Store.name_of_get? hg
    have hmem := Store.mem_toList_iff.2 hg
    obtain ⟨top, hlisted, hleads⟩ := leads_hottest_one heap (List.ne_nil_of_mem hmem)
    rw [hlisted, List.mem_singleton] at hf
    subst hf
    exact ⟨hleads.le g hmem, hleads.compare_name hg⟩
  case head =>
    intro hn hne cutoffs x hx
    obtain ⟨first, others, hlist⟩ := Store.toList_eq_cons hne
    have hsize : 0 < s.size := by
      rw [← s.length_toList, hlist]
      exact Nat.succ_pos _
    cases htop : hottest heap n s with
    | nil =>
      rw [htop, List.length_nil] at hlength
      omega
    | cons f rest =>
      have hdescending := descending_hottest heap n s
      rw [htop] at hown hholds hdescending
      have hle := hholds.le_head (List.pairwise_cons.1 hdescending).1
      obtain ⟨g, hg, hcount⟩ := hown f List.mem_cons_self
      have hmem : g ∈ s.toList := Store.mem_toList_iff.2 (by rwa [Store.name_of_get? hg])
      rw [hcount] at hle
      refine ⟨f, rfl, ?_⟩
      rw [maxCount_of_summary hx, hcount, largest_sampleCounts hmem hle]

end ListsHottest

/-! ## What is shown -/

/-- What is shown of a profile ends with the list. -/
theorem showLines_of_top {o : ShowOptions} {n : Nat} (ho : o.top? = some n) (p : Profile)
    (x : Summary) (heap : Heap HotFunction) :
    showLines o p x heap = showLines { o with top? := none } p x heap
      ++ topHeading n :: (hottest heap n p.store).map HotFunction.line := by
  unfold showLines
  rw [ho, List.append_nil]
  rfl

/-- Where a summary is at hand, the number `n` of functions that was asked for brings the heading
and a line for each of the `n` hottest functions, behind all else that is shown. -/
theorem hottest_are_shown (heap : Heap HotFunction) {o : ShowOptions} {n : Nat}
    (ho : o.top? = some n) {p : Profile} {x : Summary} (hx : p.summary = .ok x) :
    showProfile o p heap = .ok (String.join
      ((showLines { o with top? := none } p x heap
        ++ topHeading n :: (hottest heap n p.store).map HotFunction.line).map (· ++ "\n"))) ∧
    ListsHottest n p.store (hottest heap n p.store) := by
  refine ⟨?_, listsHottest_hottest heap n p.store⟩
  unfold showProfile
  rw [hx, ← showLines_of_top ho]
  rfl

/-- A profile of three functions, two of them with the largest count. -/
def withTie : Profile where
  format := .binary .latest
  store := .ofList ([("cold", 1), ("hot", 3), ("also_hot", 3)].map fun (name, count) =>
    { name, samples := SortedMap.empty.insert (.ofLine 1 0) { count } })
  summary? := some ⟨7, 3, 0, 3, 3, []⟩

/-- A list of one has the first of the two, and is shown behind its heading. -/
theorem hottest_of_withTie_are_shown :
    (∃ front, showProfile { input := "profile", top? := some 1 } withTie =
      .ok (String.join ((front ++ [topHeading 1, "  also_hot, max count = 3"]).map (· ++ "\n")))) ∧
    ListsHottest 1 withTie.store [⟨"also_hot", 3⟩] := by
  have hlist : hottest .listed 1 withTie.store = [⟨"also_hot", 3⟩] := by decide +kernel
  obtain ⟨hshown, hhottest⟩ := hottest_are_shown .listed
    (o := { input := "profile", top? := some 1 }) rfl (p := withTie) rfl
  rw [hlist] at hshown hhottest
  exact ⟨⟨_, hshown⟩, hhottest⟩

end CommandLine

end SamplingProfile
