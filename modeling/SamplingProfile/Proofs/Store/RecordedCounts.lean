-- What a run of reports comes to. The reports that are refused leave nothing behind, and those
-- that are taken can be gathered place by place: sums that are held at the largest count at each
-- report are the exact sums held there once.
import Mathlib.Algebra.Ring.Nat
import Mathlib.Data.List.Induction
import SamplingProfile.Proofs.Store.Reports

namespace SamplingProfile

/-- The reports that are taken, of those that come after the reports `before`. -/
def Event.taken (before : List Event) : List Event → List Event
  | [] => []
  | e :: events =>
    if e.TakenAfter before then e :: taken (before ++ [e]) events
    else taken (before ++ [e]) events

/-- The counts that some reports have for a place. -/
def CountPlace.reported (place : CountPlace) (events : List Event) : List Count :=
  events.filterMap fun e => if e.place? = some place then some e.count else none

/-- What some counts come to: the exact sum held at the largest count, or the largest of them. -/
def Mode.overall : Mode → List Count → Nat
  | .sum, counts => min Count.limit (counts.map UInt64.toNat).sum
  | .max, counts => (counts.map UInt64.toNat).foldl Max.max 0

/-- That a store is what a run of reports from the empty store comes to, when samples and entries
are joined by `mode`. -/
structure Store.Gathers (mode : Mode) (events : List Event) (s : Store) : Prop where
  /-- A next report is taken if its function was registered and its stack has neither no frames
  nor too many. -/
  takes : ∀ e, (s.record? e).isSome ↔ e.TakenAfter events
  /-- A next report that is refused leaves the store as it is. -/
  refuses : ∀ e, ¬ e.TakenAfter events → s.record e = s
  /-- The nodes are the functions that were registered and those on the way of a stack. -/
  nodes : ∀ name path, (s.nodeAt? name path).isSome ↔
    .register name ∈ events ∧ (path = [] ∨ ∃ e ∈ Event.taken [] events, ∃ stack,
      e.stack? = some (name, stack) ∧ path <+: stackPath stack)
  /-- A function of the store has its name and no place in the source. -/
  functions : ∀ name f, s.get? name = some f → f.toBody.bare = { name }
  /-- An inlined node is that of the frame of the first stack that leads through it. -/
  frames : ∀ name path, path ≠ [] →
    (s.bodyAt? name path).map Body.bare
      = (Event.taken [] events).findSome? (Event.opened? name path)
  /-- The locations are those that a stack leads to. -/
  locations : ∀ name path location, (s.tallyAt? name path location).isSome ↔
    ∃ e ∈ Event.taken [] events, e.spot? = some (name, path, location)
  /-- The functions called indirectly from a location are those of which a call was reported. -/
  targets : ∀ name path location callee,
    (s.countAt? (.target name path location callee)).isSome ↔
      ∃ e ∈ Event.taken [] events, e.place? = some (.target name path location callee)
  /-- Every count is what the reports of its place come to. -/
  counts : ∀ place count, s.countAt? place = some count →
    count.toNat = (place.joinedBy mode).overall (place.reported (Event.taken [] events))
  /-- The number of instructions is the number of samples, held at the largest count. -/
  instructions : ∀ name path location n, s.instructionsAt? name path location = some n →
    n.toNat = min Count.limit
      ((Event.taken [] events).countP (Event.samples name path location))

/-! ## The reports that are taken -/

theorem Event.taken_concat (before events : List Event) (e : Event) :
    taken before (events ++ [e])
      = taken before events ++ if e.TakenAfter (before ++ events) then [e] else [] := by
  induction events generalizing before with
  | nil => simp [taken]
  | cons first events ih =>
    rw [List.cons_append, taken, taken, ih, List.append_assoc, List.singleton_append]
    split <;> rfl

/-- A report makes a node below a function if its stack leads through it. -/
theorem Event.isSome_opened?_cons_iff {name : String} {site : Callsite} {path : List Callsite}
    {e : Event} : (e.opened? name (site :: path)).isSome ↔
      ∃ stack, e.stack? = some (name, stack) ∧ site :: path <+: stackPath stack := by
  have hway : ∀ (own : String) (stack : List Frame) (b : Body),
      (if name = own ∧ site :: path <+: stackPath stack then some b else none).isSome ↔
        ∃ stack', some (own, stack) = some (name, stack') ∧ site :: path <+: stackPath stack' := by
    intro own stack b
    split
    · rename_i h
      simpa [h.1] using h.2
    · rename_i h
      simpa [eq_comm (b := name)] using h
  cases e with
  | register own => simp [opened?, stack?]
  | entry own count mode => simp [opened?, stack?]
  | sample own stack count mode => exact hway own stack _
  | target own stack callee count => exact hway own stack _

namespace Store

variable {s s' : Store} {e : Event} {mode : Mode}

theorem recordAll_concat (s : Store) (events : List Event) (e : Event) :
    s.recordAll (events ++ [e]) = (s.recordAll events).record e := by
  rw [recordAll, List.foldl_append]
  rfl

theorem isSome_get?_eq (s : Store) (name : String) :
    (s.get? name).isSome = ((s.bodyAt? name []).map Body.bare).isSome := by
  unfold bodyAt?
  cases s.get? name <;> rfl

/-- A report is taken by a store of the functions that were registered before. -/
theorem isSome_record?_iff {before : List Event}
    (hknown : ∀ name, (s.get? name).isSome ↔ .register name ∈ before) (e : Event) :
    (s.record? e).isSome ↔ e.TakenAfter before := by
  cases e with
  | register name => exact iff_of_true rfl trivial
  | entry name count own =>
    rw [record?, Option.isSome_map]
    exact hknown name
  | sample name stack count own =>
    exact (isSome_editAt? s name stack _).trans (and_congr_left' (hknown name))
  | target name stack callee count =>
    exact (isSome_editAt? s name stack _).trans (and_congr_left' (hknown name))

/-- The only report to make a function is its registration: a stack is followed if its function
is known. -/
theorem opened?_of_unknown {name : String} (h : s.record? e = some s')
    (hnew : ¬ (s.get? name).isSome) :
    e.opened? name [] = if e = .register name then some { name } else none := by
  have hne : ∀ own stack, e.stack? = some (own, stack) → name ≠ own := by
    rintro own stack hway rfl
    rw [record?_of_stack? hway] at h
    exact hnew ((isSome_editAt? s name stack e.edit).1 (Option.isSome_of_eq_some h)).1
  cases e with
  | register own => simp only [Event.opened?, and_true, Event.register.injEq, eq_comm (a := own)]
  | entry own count mode => rfl
  | sample own stack count mode => simp [Event.opened?, hne own stack rfl]
  | target own stack callee count => simp [Event.opened?, hne own stack rfl]

theorem isSome_get?_record? (h : s.record? e = some s') (name : String) :
    (s'.get? name).isSome ↔ (s.get? name).isSome ∨ e = .register name := by
  rw [isSome_get?_eq, bareAt?_record? h, Option.isSome_or, Bool.or_eq_true, ← isSome_get?_eq]
  refine or_congr_right' fun hnew => ?_
  rw [opened?_of_unknown h hnew]
  split <;> simp [*]

/-- The functions of a store that comes of reports are those that were registered. -/
theorem isSome_get?_recordAll (events : List Event) (name : String) :
    ((recordAll ∅ events).get? name).isSome ↔ .register name ∈ events := by
  induction events using List.reverseRecOn with
  | nil => simp [recordAll]
  | append_singleton events e ih =>
    rw [recordAll_concat, List.mem_append, List.mem_singleton, ← ih, record, eq_comm (b := e)]
    cases hs : (recordAll ∅ events).record? e with
    | none =>
      have hne : e ≠ .register name := by
        rintro rfl
        cases hs
      simp [hne]
    | some s' => exact isSome_get?_record? hs name

/-- What one report that is taken keeps, with the list of those that were taken before, a run
keeps with the list of all that were taken. -/
theorem recordAll_taken {P : List Event → Store → Prop} (events : List Event) (hempty : P [] ∅)
    (hstep : ∀ earlier e s s', e ∈ events → P earlier s → s.record? e = some s' →
      P (earlier ++ [e]) s') :
    P (Event.taken [] events) (recordAll ∅ events) := by
  induction events using List.reverseRecOn with
  | nil => exact hempty
  | append_singleton events e ih =>
    have hevents := ih fun earlier e s s' he => hstep earlier e s s' (List.mem_append_left _ he)
    have htakes := isSome_record?_iff (isSome_get?_recordAll events) e
    rw [recordAll_concat, Event.taken_concat, List.nil_append, record]
    cases hs : (recordAll ∅ events).record? e with
    | none =>
      rw [hs] at htakes
      rw [if_neg fun htaken => by simpa using htakes.2 htaken, List.append_nil]
      exact hevents
    | some s' =>
      rw [hs] at htakes
      rw [if_pos (htakes.1 rfl)]
      exact hstep _ e _ s' (by simp) hevents hs

end Store

/-! ## What the reports come to -/

theorem Mode.overall_concat {mode : Mode} {counts : List Count} {stored : Count}
    (h : stored.toNat = mode.overall counts) (new : Count) :
    (mode.combine stored new).toNat = mode.overall (counts ++ [new]) := by
  cases mode with
  | sum =>
    rw [combine, Count.toNat_plus, h]
    simp only [overall, List.map_append, List.map_cons, List.map_nil, List.sum_append,
      List.sum_cons, List.sum_nil]
    omega
  | max =>
    rw [combine, Count.toNat_max, h]
    simp only [overall, List.map_append, List.map_cons, List.map_nil, List.foldl_append,
      List.foldl_cons, List.foldl_nil]

theorem CountPlace.reported_concat (place : CountPlace) (events : List Event) (e : Event) :
    place.reported (events ++ [e])
      = place.reported events ++ if e.place? = some place then [e.count] else [] := by
  rw [reported, List.filterMap_append]
  congr 1
  by_cases h : e.place? = some place <;> simp [h]

namespace Store

/-- The nodes with their names and their places in the source. -/
theorem bareAt?_recordAll (events : List Event) (name : String) (path : List Callsite) :
    ((recordAll ∅ events).bodyAt? name path).map Body.bare
      = (Event.taken [] events).findSome? (Event.opened? name path) := by
  refine recordAll_taken (P := fun taken s =>
    (s.bodyAt? name path).map Body.bare = taken.findSome? (Event.opened? name path)) events rfl ?_
  intro earlier e s s' _ hs h
  rw [bareAt?_record? h, hs, List.findSome?_append, List.findSome?_singleton]

/-- The count of a place, or zero where there is none. -/
theorem countAt?_recordAll {mode : Mode} {events : List Event} (hmode : ∀ e ∈ events, e.Uses mode)
    (place : CountPlace) :
    (((recordAll ∅ events).countAt? place).getD 0).toNat
      = (place.joinedBy mode).overall (place.reported (Event.taken [] events)) := by
  refine recordAll_taken (P := fun taken s =>
    ((s.countAt? place).getD 0).toNat = (place.joinedBy mode).overall (place.reported taken))
    events ?_ ?_
  · rw [countAt?_empty]
    cases place.joinedBy mode <;> rfl
  · intro earlier e s s' he hs h
    rw [countAt?_record? h (hmode e he), CountPlace.reported_concat]
    split
    · exact Mode.overall_concat hs e.count
    · rw [List.append_nil]
      exact hs

theorem tallyAt?_recordAll (events : List Event) (name : String) (path : List Callsite)
    (location : Location) :
    ((recordAll ∅ events).tallyAt? name path location).isSome ↔
      ∃ e ∈ Event.taken [] events, e.spot? = some (name, path, location) := by
  refine recordAll_taken (P := fun taken s => (s.tallyAt? name path location).isSome ↔
    ∃ e ∈ taken, e.spot? = some (name, path, location)) events (by simp) ?_
  intro earlier e s s' _ hs h
  rw [tallyAt?_record? h]
  simp only [List.mem_append, List.mem_singleton, or_and_right, exists_or, exists_eq_left, ← hs]
  split <;> simp [*]

theorem targetAt?_recordAll (events : List Event) (name : String) (path : List Callsite)
    (location : Location) (callee : String) :
    ((recordAll ∅ events).countAt? (.target name path location callee)).isSome ↔
      ∃ e ∈ Event.taken [] events, e.place? = some (.target name path location callee) := by
  refine recordAll_taken (P := fun taken s =>
    (s.countAt? (.target name path location callee)).isSome ↔
      ∃ e ∈ taken, e.place? = some (.target name path location callee)) events (by simp) ?_
  intro earlier e s s' _ hs h
  simp only [List.mem_append, List.mem_singleton, or_and_right, exists_or, exists_eq_left, ← hs,
    targetCountAt?_eq]
  rw [tallyAt?_record? h]
  by_cases hspot : e.spot? = some (name, path, location)
  · rw [if_pos hspot, Option.getD_some, Event.targets_edit hspot]
    split <;> simp [*]
  · have hplace : ¬ e.place? = some (.target name path location callee) :=
      fun hplace => hspot (Event.spot?_of_target hplace)
    rw [if_neg hspot, or_iff_left hplace]

theorem instructionsAt?_recordAll (events : List Event) (name : String) (path : List Callsite)
    (location : Location) :
    (((recordAll ∅ events).tallyAt? name path location).getD {}).instructions.toNat
      = min Count.limit
          ((Event.taken [] events).countP (Event.samples name path location)) := by
  refine recordAll_taken (P := fun taken s =>
    ((s.tallyAt? name path location).getD {}).instructions.toNat
      = min Count.limit (taken.countP (Event.samples name path location))) events ?_ ?_
  · rfl
  · intro earlier e s s' _ hs h
    rw [tallyAt?_record? h, List.countP_append, List.countP_singleton]
    by_cases hspot : e.spot? = some (name, path, location)
    · rw [if_pos hspot, Option.getD_some, Event.instructions_edit hspot]
      split
      · have hone : (1 : Count).toNat = 1 := rfl
        rw [Count.toNat_plus, hs, hone]
        omega
      · exact hs
    · have hsample : ¬ e.samples name path location = true := by
        unfold Event.samples
        rw [decide_eq_true_iff]
        exact fun hplace => hspot (Event.spot?_of_sample hplace)
      rw [if_neg hspot, if_neg hsample]
      exact hs

/-- Whatever reports have changed in a function, it has its name and no place in the source. -/
theorem bareAt?_nil_recordAll (events : List Event) (name : String) {b : Body}
    (hb : (recordAll ∅ events).bodyAt? name [] = some b) : b.bare = { name } := by
  have hall := recordAll_taken (P := fun _ s =>
    ∀ b ∈ (s.bodyAt? name []).map Body.bare, b = { name }) events (fun b hb => nomatch hb) ?_
  · exact hall b.bare (by rw [hb]; rfl)
  · intro earlier e s s' _ hs h b hb
    rw [bareAt?_record? h] at hb
    cases hold : (s.bodyAt? name []).map Body.bare with
    | some own =>
      rw [hold] at hb hs
      exact hs b hb
    | none =>
      have hnew : ¬ (s.get? name).isSome := by
        rw [isSome_get?_eq, hold]
        exact Bool.false_ne_true
      rw [hold, Option.none_or, opened?_of_unknown h hnew] at hb
      split at hb
      · cases hb
        rfl
      · cases hb

/-- The nodes are the functions that were registered, and those that a stack leads through. -/
theorem isSome_nodeAt?_recordAll (events : List Event) (name : String) (path : List Callsite) :
    ((recordAll ∅ events).nodeAt? name path).isSome ↔
      .register name ∈ events ∧ (path = [] ∨ ∃ e ∈ Event.taken [] events, ∃ stack,
        e.stack? = some (name, stack) ∧ path <+: stackPath stack) := by
  have hfunction : ((recordAll ∅ events).nodeAt? name path).isSome →
      ((recordAll ∅ events).get? name).isSome := by
    unfold nodeAt?
    cases (recordAll ∅ events).get? name <;> simp
  have hnode : ((recordAll ∅ events).nodeAt? name path).isSome
      = ((Event.taken [] events).findSome? (Event.opened? name path)).isSome := by
    rw [← bareAt?_recordAll, Option.isSome_map, bodyAt?_eq_map, Option.isSome_map]
  cases path with
  | nil =>
    rw [← isSome_get?_recordAll, nodeAt?]
    cases (recordAll ∅ events).get? name <;> simp [FunctionProfile.nodeAt?]
  | cons site path =>
    rw [isSome_get?_recordAll] at hfunction
    rw [hnode, List.findSome?_isSome_iff] at hfunction ⊢
    simp only [Event.isSome_opened?_cons_iff, reduceCtorEq, false_or] at hfunction ⊢
    exact ⟨fun h => ⟨hfunction h, h⟩, fun h => h.2⟩

/-- What a run of reports comes to: the reports that are taken, the nodes, locations and functions
called that they make, and the count at each place. A location is the line of the frame, counted
from the first line of its function, and the discriminator, of 16 bits each. -/
theorem recordAll_closed_form (mode : Mode) (events : List Event)
    (hmode : ∀ e ∈ events, e.Uses mode) :
    (recordAll ∅ events).Gathers mode events ∧
    ∀ frame : Frame, (frame.location.packed.toNat : Int)
      = ((frame.line.toNat : Int) - frame.startLine.toNat) % 65536 * 65536
        + frame.discriminator.toNat % 65536 := by
  have hknown := isSome_get?_recordAll events
  have htakes := isSome_record?_iff hknown
  refine ⟨⟨htakes, fun e he => ?_, isSome_nodeAt?_recordAll events, fun name f hf => ?_,
    fun name path _ => bareAt?_recordAll events name path, tallyAt?_recordAll events,
    targetAt?_recordAll events, fun place count hc => ?_, fun name path location n hn => ?_⟩, ?_⟩
  · unfold record
    cases hs : (recordAll ∅ events).record? e with
    | none => rfl
    | some s' => exact absurd ((htakes e).1 (Option.isSome_of_eq_some hs)) he
  · apply bareAt?_nil_recordAll events name
    unfold bodyAt?
    rw [hf]
    rfl
  · have h := countAt?_recordAll hmode place
    rwa [hc] at h
  · have h := instructionsAt?_recordAll events name path location
    unfold instructionsAt? at hn
    obtain ⟨t, ht, rfl⟩ := Option.map_eq_some_iff.1 hn
    rwa [ht] at h
  · exact Frame.toNat_location

/-- The stack of a function that is inlined before the first line of its caller. -/
def someStack : List Frame :=
  [{ function := "g", file := "g.c", line := 7 },
    { function := "main", startLine := 3, line := 2, discriminator := 1 }]

/-- An entry before the function is known, samples that pass the largest count together, a call,
a stack without frames and one of an unknown function. -/
def someRun : List Event := [
  .entry "main" 9 .sum,
  .register "main",
  .sample "main" someStack 18446744073709551615 .sum,
  .target "main" someStack "h" 4,
  .sample "main" [] 1 .sum,
  .sample "g" someStack 1 .sum,
  .sample "main" someStack 3 .sum,
  .entry "main" 5 .sum]

/-- Of `someRun` five reports are taken, and they come to the largest count of samples. -/
theorem someRun_closed_form : (∀ e ∈ someRun, e.Uses .sum) ∧
    (recordAll ∅ someRun).Gathers .sum someRun ∧
    (Event.taken [] someRun).length = 5 ∧
    (recordAll ∅ someRun).countAt? (.entry "main" []) = some 5 ∧
    (recordAll ∅ someRun).countAt? (.sample "main" [⟨⟨0xffff0001⟩, "g"⟩] ⟨0x70000⟩)
      = some 18446744073709551615 :=
  have hmode : ∀ e ∈ someRun, e.Uses .sum := by decide
  ⟨hmode, (recordAll_closed_form .sum someRun hmode).1, by decide +kernel, by decide +kernel,
    by decide +kernel⟩

end Store

end SamplingProfile
