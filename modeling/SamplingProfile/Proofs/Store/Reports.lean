-- What one report does to a store: which reports are taken, the nodes and the tally that a report
-- leads to, and the counts that it changes. Each view of the store has one law, so that what a
-- run comes to follows report by report.
import SamplingProfile.Proofs.Store.StackPaths

namespace SamplingProfile

/-! ## What a report says -/

namespace Event

/-- Whether a report is taken when the reports `before` came before it: its function was
registered, and its stack has neither no frames nor too many. -/
def TakenAfter (before : List Event) : Event → Prop
  | .register _ => True
  | .entry name _ _ => .register name ∈ before
  | .sample name stack _ _ | .target name stack _ _ =>
    .register name ∈ before ∧ 0 < stack.length ∧ stack.length ≤ maxInlineDepth + 1

instance (before : List Event) : (e : Event) → Decidable (e.TakenAfter before)
  | .register _ => inferInstanceAs (Decidable True)
  | .entry .. => inferInstanceAs (Decidable (_ ∈ _))
  | .sample .. | .target .. => inferInstanceAs (Decidable (_ ∧ _ ∧ _))

/-- Whether the counts of a report join the stored ones by `mode`. Calls are always added. -/
def Uses (mode : Mode) : Event → Prop
  | .entry _ _ own | .sample _ _ _ own => own = mode
  | .register _ | .target .. => True

instance (mode : Mode) : (e : Event) → Decidable (e.Uses mode)
  | .entry .. | .sample .. => inferInstanceAs (Decidable (_ = _))
  | .register _ | .target .. => inferInstanceAs (Decidable True)

/-- The function and the stack of a report that has a stack. -/
def stack? : Event → Option (String × List Frame)
  | .register _ | .entry .. => none
  | .sample name stack _ _ | .target name stack _ _ => some (name, stack)

/-- The node and the location that the stack of a report leads to. -/
def spot? (e : Event) : Option (String × List Callsite × Location) :=
  e.stack?.map fun way => (way.1, stackPath way.2, stackLocation way.2)

/-- The node that a report makes at the end of a path, if there is none: a function that is
known has a name only, and a node on the way of a stack is that of a frame. -/
def opened? (name : String) (path : List Callsite) : Event → Option Body
  | .register own => if name = own ∧ path = [] then some { name } else none
  | .entry .. => none
  | .sample own stack _ _ | .target own stack _ _ =>
    if name = own ∧ path <+: stackPath stack
      then some (FunctionProfile.ofFrame (stackFrame stack path.length)).toBody else none

/-- The place of the count of a report. -/
def place? : Event → Option CountPlace
  | .register _ => none
  | .entry name _ _ => some (.entry name [])
  | .sample name stack _ _ => some (.sample name (stackPath stack) (stackLocation stack))
  | .target name stack callee _ =>
    some (.target name (stackPath stack) (stackLocation stack) callee)

/-- The count of a report. -/
def count : Event → Count
  | .register _ => 0
  | .entry _ count _ | .sample _ _ count _ | .target _ _ _ count => count

/-- What a report does to the tally that its stack leads to. -/
def edit : Event → Tally → Tally
  | .register _ | .entry .. => id
  | .sample _ _ count mode => Tally.addSample mode count
  | .target _ _ callee count => Tally.addTarget callee count

/-- Whether a report is a sample of a location. -/
def samples (name : String) (path : List Callsite) (location : Location) (e : Event) : Bool :=
  e.place? = some (.sample name path location)

end Event

/-- How the counts of a place are joined when samples and entries are joined by `mode`. -/
def CountPlace.joinedBy (mode : Mode) : CountPlace → Mode
  | .entry .. | .sample .. => mode
  | .target .. => .sum

/-! ## The tally that a report leads to -/

namespace Event

variable {e : Event} {mode : Mode} {name callee : String} {path : List Callsite}
  {location : Location}

/-- A report of another place leaves the count of samples. -/
theorem count_edit (hmode : e.Uses mode) (hspot : e.spot? = some (name, path, location))
    (t : Tally) :
    (e.edit t).count
      = if e.place? = some (.sample name path location) then mode.combine t.count e.count
        else t.count := by
  cases e with
  | register => cases hspot
  | entry => cases hspot
  | sample n stack count own =>
    have hown : own = mode := hmode
    have hplace : (sample n stack count own).place? = some (.sample name path location) := by
      cases hspot
      rfl
    rw [if_pos hplace, ← hown]
    rfl
  | target name stack callee count => rfl

theorem instructions_edit (hspot : e.spot? = some (name, path, location)) (t : Tally) :
    (e.edit t).instructions
      = if e.samples name path location then t.instructions.plus 1 else t.instructions := by
  cases e with
  | register => cases hspot
  | entry => cases hspot
  | sample name stack count own =>
    cases hspot
    simp only [samples, place?, decide_true, if_true]
    rfl
  | target name stack callee count => rfl

/-- Only a call of a function changes how often it was called. -/
theorem targets_edit (hspot : e.spot? = some (name, path, location)) (t : Tally) :
    (e.edit t).targets.get? callee
      = if e.place? = some (.target name path location callee)
        then some (((t.targets.get? callee).getD 0).plus e.count)
        else t.targets.get? callee := by
  cases e with
  | register => cases hspot
  | entry => cases hspot
  | sample name stack count own => rfl
  | target name stack own count =>
    cases hspot
    have hget := SortedMap.get?_update t.targets own callee
      fun stored => (stored.getD 0).plus count
    simp only [edit, Tally.addTarget, hget, place?, Option.some.injEq, CountPlace.target.injEq,
      true_and, eq_comm (a := own)]
    split
    · rename_i h
      rw [h]
      rfl
    · rfl

/-- A sample has its count at the spot of its stack. -/
theorem spot?_of_sample (h : e.place? = some (.sample name path location)) :
    e.spot? = some (name, path, location) := by
  cases e with
  | sample own stack count mode =>
    cases h
    rfl
  | _ => cases h

/-- A call has its count at the spot of its stack. -/
theorem spot?_of_target (h : e.place? = some (.target name path location callee)) :
    e.spot? = some (name, path, location) := by
  cases e with
  | target own stack callee count =>
    cases h
    rfl
  | _ => cases h

end Event

/-! ## One report -/

namespace Store

variable {s s' : Store} {e : Event}

/-- A function that is not known is put in the store, as its name only. -/
theorem bodyAt?_register {name : String} (h : s.record? (.register name) = some s') (q : String)
    (path : List Callsite) :
    s'.bodyAt? q path
      = (s.bodyAt? q path).or (if q = name ∧ path = [] then some { name := q } else none) := by
  unfold record? at h
  cases h
  have hcontains : s.contains name = (s.get? name).isSome := rfl
  rw [hcontains]
  cases hget : s.get? name with
  | some f =>
    rw [Option.isSome_some, if_pos rfl]
    split
    · rename_i hown
      obtain ⟨rfl, rfl⟩ := hown
      have hbody : s.bodyAt? q [] = some f.toBody := by
        unfold bodyAt?
        rw [hget]
        rfl
      rw [hbody, Option.some_or]
    · rw [Option.or_none]
  | none =>
    rw [Option.isSome_none, if_neg Bool.false_ne_true, bodyAt?_insert]
    show (if q = name then _ else _) = _
    by_cases hq : q = name
    · subst hq
      have hnone : s.bodyAt? q path = none := by
        unfold bodyAt?
        rw [hget]
        rfl
      rw [if_pos rfl, hnone, Option.none_or]
      cases path with
      | nil => rw [if_pos ⟨rfl, rfl⟩]; rfl
      | cons site path => rw [if_neg (by simp)]; rfl
    · rw [if_neg hq, if_neg fun h => hq h.1, Option.or_none]

/-- An entry changes one count of the function itself. -/
theorem bodyAt?_entry {name : String} {count : Count} {mode : Mode}
    (h : s.record? (.entry name count mode) = some s') (q : String) (path : List Callsite) :
    s'.bodyAt? q path
      = if q = name ∧ path = []
        then (s.bodyAt? q path).map fun b =>
          { b with entryCount := mode.combine b.entryCount count }
        else s.bodyAt? q path := by
  obtain ⟨f, hf, rfl⟩ := Option.map_eq_some_iff.1 h
  obtain rfl : f.name = name := name_of_get? hf
  rw [bodyAt?_insert]
  show (if q = f.name then _ else _) = _
  by_cases hq : q = f.name
  · have hbody : s.bodyAt? q path = f.bodyAt? path := by
      unfold bodyAt?
      rw [hq, hf]
      rfl
    rw [if_pos hq, hbody]
    cases path with
    | nil => rw [if_pos ⟨hq, rfl⟩]; rfl
    | cons site path => rw [if_neg (by simp)]; rfl
  · rw [if_neg hq, if_neg fun h => hq h.1]

/-- A report with a stack is recorded where the stack leads. -/
theorem record?_of_stack? {name : String} {stack : List Frame}
    (h : e.stack? = some (name, stack)) : s.record? e = s.editAt? name stack e.edit := by
  cases e with
  | register => cases h
  | entry => cases h
  | sample => cases h; rfl
  | target => cases h; rfl

/-- The tally that the stack of a report leads to is changed by the report, and no other. -/
theorem tallyAt?_record? (h : s.record? e = some s') (q : String) (path : List Callsite)
    (location : Location) :
    s'.tallyAt? q path location
      = if e.spot? = some (q, path, location)
        then some (e.edit ((s.tallyAt? q path location).getD {}))
        else s.tallyAt? q path location := by
  have hstack : ∀ name stack, e.stack? = some (name, stack) →
      s'.tallyAt? q path location
        = if e.spot? = some (q, path, location)
          then some (e.edit ((s.tallyAt? q path location).getD {}))
          else s.tallyAt? q path location := by
    intro name stack hway
    rw [record?_of_stack? hway] at h
    have hspot : e.spot? = some (name, stackPath stack, stackLocation stack) := by
      unfold Event.spot?
      rw [hway]
      rfl
    rw [tallyAt?_editAt? h, hspot]
    simp only [Option.some.injEq, Prod.mk.injEq, eq_comm (b := q), eq_comm (b := path),
      eq_comm (b := location)]
  cases e with
  | register name =>
    have hnew : ({ name := q } : Body).samples.get? location = none := rfl
    rw [tallyAt?_eq_bind, bodyAt?_register h, tallyAt?_eq_bind]
    cases s.bodyAt? q path with
    | some b => rfl
    | none =>
      rw [Option.none_or]
      split <;> rfl
  | entry name count mode =>
    rw [tallyAt?_eq_bind, bodyAt?_entry h, tallyAt?_eq_bind]
    split
    · rw [Option.bind_map]
      rfl
    · rfl
  | sample name stack count mode => exact hstack name stack rfl
  | target name stack callee count => exact hstack name stack rfl

/-- A report makes the nodes that are not there, and of the others it changes counts only. -/
theorem bareAt?_record? (h : s.record? e = some s') (q : String) (path : List Callsite) :
    (s'.bodyAt? q path).map Body.bare
      = ((s.bodyAt? q path).map Body.bare).or (e.opened? q path) := by
  cases e with
  | register name =>
    rw [bodyAt?_register h]
    cases s.bodyAt? q path with
    | some b => rfl
    | none =>
      rw [Option.none_or, Option.map_none, Option.none_or]
      simp only [Event.opened?]
      split <;> rfl
  | entry name count mode =>
    rw [bodyAt?_entry h]
    show _ = ((s.bodyAt? q path).map Body.bare).or none
    rw [Option.or_none]
    split
    · rw [Option.map_map]
      rfl
    · rfl
  | sample name stack count mode => exact bareAt?_editAt? h q path
  | target name stack callee count => exact bareAt?_editAt? h q path

/-- An entry is counted at the function itself, and no other report changes how often a node was
entered. -/
theorem entryCountAt?_record? {mode : Mode} (h : s.record? e = some s') (hmode : e.Uses mode)
    (q : String) (path : List Callsite) :
    (s'.countAt? (.entry q path)).getD 0
      = if e.place? = some (.entry q path)
        then mode.combine ((s.countAt? (.entry q path)).getD 0) e.count
        else (s.countAt? (.entry q path)).getD 0 := by
  cases e with
  | register name =>
    have hplace : (Event.register name).place? ≠ some (.entry q path) := by simp [Event.place?]
    rw [if_neg hplace, entryCountAt?_eq_map, bodyAt?_register h, entryCountAt?_eq_map]
    cases s.bodyAt? q path with
    | some b => rfl
    | none =>
      rw [Option.none_or]
      split <;> rfl
  | entry name count own =>
    obtain rfl : own = mode := hmode
    have hplace : (Event.entry name count own).place? = some (.entry q path) ↔
        q = name ∧ path = [] := by
      simp [Event.place?, eq_comm]
    simp only [hplace, entryCountAt?_eq_map, bodyAt?_entry h]
    split
    · rename_i hself
      obtain ⟨f, hf, -⟩ := Option.map_eq_some_iff.1 h
      have hbody : s.bodyAt? q path = some f.toBody := by
        unfold bodyAt?
        rw [hself.1, hself.2, hf]
        rfl
      rw [hbody]
      rfl
    · rfl
  | sample name stack count own =>
    have hplace : (Event.sample name stack count own).place? ≠ some (.entry q path) := by
      simp [Event.place?]
    rw [if_neg hplace]
    exact entryCountAt?_editAt? h q path
  | target name stack callee count =>
    have hplace : (Event.target name stack callee count).place? ≠ some (.entry q path) := by
      simp [Event.place?]
    rw [if_neg hplace]
    exact entryCountAt?_editAt? h q path

theorem sampleCountAt?_getD (s : Store) (q : String) (path : List Callsite)
    (location : Location) :
    (s.countAt? (.sample q path location)).getD 0
      = ((s.tallyAt? q path location).getD {}).count := by
  simp only [countAt?]
  cases s.tallyAt? q path location <;> rfl

theorem targetCountAt?_eq (s : Store) (q : String) (path : List Callsite) (location : Location)
    (callee : String) :
    s.countAt? (.target q path location callee)
      = ((s.tallyAt? q path location).getD {}).targets.get? callee := by
  simp only [countAt?]
  cases s.tallyAt? q path location <;> rfl

/-- A report changes the count that it is of, and no other. -/
theorem countAt?_record? {mode : Mode} (h : s.record? e = some s') (hmode : e.Uses mode)
    (place : CountPlace) :
    (s'.countAt? place).getD 0
      = if e.place? = some place
        then (place.joinedBy mode).combine ((s.countAt? place).getD 0) e.count
        else (s.countAt? place).getD 0 := by
  cases place with
  | entry q path => exact entryCountAt?_record? h hmode q path
  | sample q path location =>
    rw [sampleCountAt?_getD, sampleCountAt?_getD, tallyAt?_record? h]
    by_cases hspot : e.spot? = some (q, path, location)
    · rw [if_pos hspot, Option.getD_some, Event.count_edit hmode hspot]
      rfl
    · rw [if_neg hspot, if_neg]
      exact fun hplace => hspot (Event.spot?_of_sample hplace)
  | target q path location callee =>
    rw [targetCountAt?_eq, targetCountAt?_eq, tallyAt?_record? h]
    by_cases hspot : e.spot? = some (q, path, location)
    · rw [if_pos hspot, Option.getD_some, Event.targets_edit hspot]
      split <;> rfl
    · rw [if_neg hspot, if_neg]
      exact fun hplace => hspot (Event.spot?_of_target hplace)

end Store

end SamplingProfile
