-- Reports that are shared out among stores. Each part of the reports is recorded in a store of its
-- own, and the stores are merged afterwards; what comes of it holds the same samples as one store
-- that took all the reports. The two ways to a count differ, by paths and by trees, and in where
-- they stop at the largest count; both give the exact sum held there once.
import SamplingProfile.Proofs.Store.RecordedCounts

namespace SamplingProfile

/-- Whether a report makes a place, if it is not there: the node that a report leads through, the
location that it leads to, or the function that was called. -/
def Event.Opens (e : Event) : CountPlace → Prop
  | .entry name path => (e.opened? name path).isSome
  | .sample name path location => e.spot? = some (name, path, location)
  | .target name path location callee => e.place? = some (.target name path location callee)

/-- A report that is taken is taken as well when more reports came before. -/
theorem Event.TakenAfter.append_left {before : List Event} {e : Event} (h : e.TakenAfter before)
    (earlier : List Event) : e.TakenAfter (earlier ++ before) := by
  cases e with
  | register name => trivial
  | entry name count mode => exact List.mem_append_right earlier h
  | sample name stack count mode => exact ⟨List.mem_append_right earlier h.1, h.2⟩
  | target name stack callee count => exact ⟨List.mem_append_right earlier h.1, h.2⟩

namespace Store

/-- The store after a list of reports, if none of them is refused. -/
def recordAll? (s : Store) (events : List Event) : Option Store := events.foldlM record? s

/-- That two stores hold the same samples: the same nodes, each of the same name, with the same
locations and functions called, and the same count at every place. The numbers of instructions and
the places in the source are left open. -/
structure SameSamples (s t : Store) : Prop where
  names : ∀ name path,
    (s.nodeAt? name path).map (·.name) = (t.nodeAt? name path).map (·.name)
  counts : ∀ place, s.countAt? place = t.countAt? place

/-! ## Runs without a refusal -/

theorem recordAll?_concat (s : Store) (events : List Event) (e : Event) :
    s.recordAll? (events ++ [e]) = (s.recordAll? events).bind fun t => t.record? e := by
  simp [recordAll?, List.foldlM_append]

/-- If no report is refused, the run is that of all the reports, and all of them are taken. -/
theorem recordAll?_eq_some {events : List Event} {s : Store} (h : recordAll? ∅ events = some s) :
    recordAll ∅ events = s ∧ Event.taken [] events = events := by
  induction events using List.reverseRecOn generalizing s with
  | nil =>
    cases h
    exact ⟨rfl, rfl⟩
  | append_singleton events e ih =>
    rw [recordAll?_concat] at h
    obtain ⟨t, ht, hs⟩ := Option.bind_eq_some_iff.1 h
    obtain ⟨rfl, htaken⟩ := ih ht
    have htakes : e.TakenAfter events :=
      (isSome_record?_iff (isSome_get?_recordAll events) e).1 (Option.isSome_of_eq_some hs)
    rw [recordAll_concat, record, hs, Event.taken_concat, htaken, List.nil_append, if_pos htakes]
    exact ⟨rfl, rfl⟩

/-- What a store of its own takes, a store that took other reports before takes as well. -/
theorem recordAll?_append {earlier events : List Event} {s t : Store}
    (hs : recordAll? ∅ earlier = some s) (ht : recordAll? ∅ events = some t) :
    recordAll? ∅ (earlier ++ events) = some (recordAll ∅ (earlier ++ events)) := by
  induction events using List.reverseRecOn generalizing t with
  | nil =>
    rw [List.append_nil, hs, (recordAll?_eq_some hs).1]
  | append_singleton events e ih =>
    rw [recordAll?_concat] at ht
    obtain ⟨middle, hmiddle, he⟩ := Option.bind_eq_some_iff.1 ht
    obtain ⟨rfl, -⟩ := recordAll?_eq_some hmiddle
    have halone : e.TakenAfter events :=
      (isSome_record?_iff (isSome_get?_recordAll events) e).1 (Option.isSome_of_eq_some he)
    have htakes := (isSome_record?_iff (isSome_get?_recordAll (earlier ++ events)) e).2
      (halone.append_left earlier)
    obtain ⟨whole, hwhole⟩ := Option.isSome_iff_exists.1 htakes
    rw [← List.append_assoc, recordAll?_concat, ih hmiddle, Option.bind_some, recordAll_concat,
      record, hwhole, Option.getD_some]

/-! ## The places of a run -/

/-- The places are those that a report makes. -/
theorem isSome_countAt?_recordAll (events : List Event) (place : CountPlace) :
    ((recordAll ∅ events).countAt? place).isSome ↔
      ∃ e ∈ Event.taken [] events, e.Opens place := by
  cases place with
  | entry name path =>
    have hnodes := bareAt?_recordAll events name path
    rw [entryCountAt?_eq_map, Option.isSome_map, ← Option.isSome_map, hnodes,
      List.findSome?_isSome_iff]
    rfl
  | sample name path location =>
    have hlocations := tallyAt?_recordAll events name path location
    rw [countAt?, Option.isSome_map, hlocations]
    rfl
  | target name path location callee => exact targetAt?_recordAll events name path location callee

theorem nameAt?_recordAll (events : List Event) (name : String) (path : List Callsite) :
    ((recordAll ∅ events).nodeAt? name path).map (·.name)
      = ((Event.taken [] events).findSome? (Event.opened? name path)).map Body.name := by
  rw [← bareAt?_recordAll, bodyAt?_eq_map, Option.map_map, Option.map_map]
  rfl

theorem nameAt?_mergeWeighted (mode : Mode) (weight : Count) (s other : Store) (name : String)
    (path : List Callsite) :
    ((s.mergeWeighted mode weight other).nodeAt? name path).map (·.name)
      = ((s.nodeAt? name path).map (·.name)).or ((other.nodeAt? name path).map (·.name)) := by
  rw [nodeAt?_mergeWeighted]
  cases other.nodeAt? name path with
  | none => rw [Option.map_none, Option.or_none]; rfl
  | some g => cases s.nodeAt? name path <;> simp [FunctionProfile.joined?]

/-! ## Counts -/

/-- With nothing at a place counted as zero, one step of a sum is a sum. -/
theorem getD_step_sum (own? other? : Option Count) :
    ((Mode.sum.step 1 own? other?).getD 0).toNat
      = min ((own?.getD 0).toNat + (other?.getD 0).toNat) Count.limit := by
  have hself := (own?.getD 0).toNat_le_limit
  cases other? with
  | none =>
    simp only [Mode.step, Option.getD_none, UInt64.toNat_zero]
    omega
  | some new =>
    rw [Mode.step_some, Count.times_one]
    exact Count.toNat_plus _ _

theorem isSome_step (mode : Mode) (weight : Count) (own? other? : Option Count) :
    (mode.step weight own? other?).isSome ↔ own?.isSome ∨ other?.isSome := by
  cases other? with
  | none => simp [Mode.step]
  | some new => simp [Mode.step]

theorem eq_of_isSome_of_getD {x? y? : Option Count} (hsome : x?.isSome ↔ y?.isSome)
    (hcount : (x?.getD 0).toNat = (y?.getD 0).toNat) : x? = y? := by
  cases x? <;> cases y? <;> simp_all [UInt64.toNat_inj]

/-- Sums that are held at the largest count may be taken in two parts. -/
theorem overall_sum_append (counts more : List Count) :
    Mode.sum.overall (counts ++ more)
      = min (Mode.sum.overall counts + Mode.sum.overall more) Count.limit := by
  simp only [Mode.overall, List.map_append, List.sum_append]
  omega

variable {A B : List Event}

theorem countAt?_merge_recordAll (hA : ∀ e ∈ A, e.Uses .sum) (hB : ∀ e ∈ B, e.Uses .sum)
    (htaken : Event.taken [] (A ++ B) = Event.taken [] A ++ Event.taken [] B)
    (place : CountPlace) :
    ((recordAll ∅ A).merge .sum (recordAll ∅ B)).countAt? place
      = (recordAll ∅ (A ++ B)).countAt? place := by
  have hAB : ∀ e ∈ A ++ B, e.Uses .sum := by
    intro e he
    rcases List.mem_append.1 he with h | h
    · exact hA e h
    · exact hB e h
  have hsum : place.joinedBy .sum = .sum := by cases place <;> rfl
  have hreported : place.reported (Event.taken [] A ++ Event.taken [] B)
      = place.reported (Event.taken [] A) ++ place.reported (Event.taken [] B) :=
    List.filterMap_append
  rw [merge, countAt?_mergeWeighted]
  apply eq_of_isSome_of_getD
  · simp only [isSome_step, isSome_countAt?_recordAll, htaken, List.mem_append, or_and_right,
      exists_or]
  · rw [getD_step_sum, countAt?_recordAll hA, countAt?_recordAll hB, countAt?_recordAll hAB,
      htaken, hreported, hsum, overall_sum_append]

/-! ## The law -/

/-- Two runs of reports without a refusal, each in a store of its own. All the reports together are
taken by one store as well, and it holds the same samples as the two stores merged. -/
theorem merge_of_shards (hA : ∀ e ∈ A, e.Uses .sum) (hB : ∀ e ∈ B, e.Uses .sum) {a b : Store}
    (ha : recordAll? ∅ A = some a) (hb : recordAll? ∅ B = some b) :
    ∃ whole, recordAll? ∅ (A ++ B) = some whole ∧ (a.merge .sum b).SameSamples whole := by
  have hwhole := recordAll?_append ha hb
  obtain ⟨rfl, hA'⟩ := recordAll?_eq_some ha
  obtain ⟨rfl, hB'⟩ := recordAll?_eq_some hb
  have htaken : Event.taken [] (A ++ B) = Event.taken [] A ++ Event.taken [] B := by
    rw [(recordAll?_eq_some hwhole).2, hA', hB']
  refine ⟨_, hwhole, ⟨fun name path => ?_, countAt?_merge_recordAll hA hB htaken⟩⟩
  rw [merge, nameAt?_mergeWeighted]
  simp only [nameAt?_recordAll, htaken, List.findSome?_append, Option.map_or]

/-- Reports of one half of a run, among them a callee that is inlined. -/
def firstShard : List Event := [
  .register "main",
  .entry "main" 5 .sum,
  .sample "main" someStack 18446744073709551615 .sum,
  .target "main" someStack "h" 4]

/-- Reports of the other half, at the same places and at new ones. -/
def secondShard : List Event := [
  .register "g",
  .register "main",
  .sample "main" someStack 3 .sum,
  .target "main" someStack "h" 2,
  .sample "g" [{ function := "g", line := 7 }] 6 .sum]

/-- The two halves meet at a location whose samples pass the largest count. -/
theorem shards_of_one_run : (∀ e ∈ firstShard, e.Uses .sum) ∧ (∀ e ∈ secondShard, e.Uses .sum) ∧
    ∃ a b whole, recordAll? ∅ firstShard = some a ∧ recordAll? ∅ secondShard = some b ∧
      recordAll? ∅ (firstShard ++ secondShard) = some whole ∧
      (a.merge .sum b).SameSamples whole := by
  have hfirst : ∀ e ∈ firstShard, e.Uses .sum := by decide
  have hsecond : ∀ e ∈ secondShard, e.Uses .sum := by decide
  have ha : (recordAll? ∅ firstShard).isSome := by decide +kernel
  have hb : (recordAll? ∅ secondShard).isSome := by decide +kernel
  obtain ⟨a, ha⟩ := Option.isSome_iff_exists.1 ha
  obtain ⟨b, hb⟩ := Option.isSome_iff_exists.1 hb
  obtain ⟨whole, hwhole, hsame⟩ := merge_of_shards hfirst hsecond ha hb
  exact ⟨hfirst, hsecond, a, b, whole, ha, hb, hwhole, hsame⟩

end Store

end SamplingProfile
