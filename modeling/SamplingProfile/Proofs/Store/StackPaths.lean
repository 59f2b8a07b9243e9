-- Where the stack of a report leads. From the frame of the function each step goes to the callee
-- of the next frame inwards, below the callsite that the two frames give; the nodes on the way
-- are there afterwards, and only the tally at the end has changed.
import SamplingProfile.Store.Event
import SamplingProfile.Proofs.Store.Places

namespace SamplingProfile

/-! ## Stacks -/

/-- The callsites that a stack leads through, the one in the outermost frame first. The stack is
given from the innermost frame on, and each callsite has the location of one frame and the
function of the frame before it. -/
def stackPath (stack : List Frame) : List Callsite :=
  (List.zipWith (fun callee caller => (⟨caller.location, callee.function⟩ : Callsite))
    stack stack.tail).reverse

/-- The frame of the node that a stack has reached after `steps` callsites. -/
def stackFrame (stack : List Frame) (steps : Nat) : Frame := stack.reverse.getD steps default

/-- The location of the innermost frame. -/
def stackLocation (stack : List Frame) : Location := (stack.headD default).location

/-- The callsites below a frame, for the frames inlined in it, the outermost first. -/
def pathBelow : Frame → List Frame → List Callsite
  | _, [] => []
  | frame, callee :: inner => ⟨frame.location, callee.function⟩ :: pathBelow callee inner

/-- The line is counted from the first line of the function, and a line before it wraps. -/
theorem Frame.toNat_location (frame : Frame) :
    (frame.location.packed.toNat : Int)
      = ((frame.line.toNat : Int) - frame.startLine.toNat) % 65536 * 65536
        + frame.discriminator.toNat % 65536 := by
  have hline := frame.line.toNat_lt
  have hstart := frame.startLine.toNat_lt
  rw [Frame.location, Location.toNat_ofLine, UInt32.toNat_sub]
  omega

theorem stackPath_concat (inner : List Frame) (callee caller : Frame) :
    stackPath (inner ++ [callee, caller])
      = ⟨caller.location, callee.function⟩ :: stackPath (inner ++ [callee]) := by
  have hzip : ∀ (step : Frame → Frame → Callsite) (inner : List Frame),
      List.zipWith step (inner ++ [callee, caller]) (inner ++ [callee, caller]).tail
        = List.zipWith step (inner ++ [callee]) (inner ++ [callee]).tail
            ++ [step callee caller] := by
    intro step inner
    induction inner with
    | nil => rfl
    | cons x inner ih =>
      cases inner with
      | nil => rfl
      | cons y inner => simpa using ih
  unfold stackPath
  rw [hzip, List.reverse_append]
  rfl

theorem stackPath_reverse (frame : Frame) (inner : List Frame) :
    stackPath (frame :: inner).reverse = pathBelow frame inner := by
  induction inner generalizing frame with
  | nil => rfl
  | cons callee inner ih =>
    rw [pathBelow, ← ih callee]
    simp only [List.reverse_cons, List.append_assoc, List.cons_append, List.nil_append]
    exact stackPath_concat inner.reverse callee frame

theorem stackLocation_reverse (frame : Frame) (inner : List Frame) :
    stackLocation (frame :: inner).reverse = (inner.getLastD frame).location := by
  unfold stackLocation
  rw [List.headD_eq_head?_getD, List.head?_reverse, List.getLast?_cons, Option.getD_some,
    List.getLastD_eq_getLast?]

/-! ## One node -/

/-- A node without its counts: the name of the function and its place in the source. -/
def Body.bare (b : Body) : Body := { b with entryCount := 0, samples := ∅ }

theorem Body.bare_editAt (b : Body) (location : Location) (edit : Tally → Tally) :
    (b.editAt location edit).bare = b.bare := rfl

theorem Body.get?_editAt (b : Body) (location q : Location) (edit : Tally → Tally) :
    (b.editAt location edit).samples.get? q
      = if q = location then some (edit ((b.samples.get? q).getD {})) else b.samples.get? q := by
  unfold editAt
  rw [SortedMap.get?_update]
  split
  · rename_i h
    rw [h]
  · rfl

/-! ## The nodes of a function -/

namespace FunctionProfile

/-- What the node at the end of a path holds itself. -/
def bodyAt? (f : FunctionProfile) (path : List Callsite) : Option Body :=
  (f.nodeAt? path).map (·.toBody)

theorem bodyAt?_cons (f : FunctionProfile) (site : Callsite) (path : List Callsite) :
    f.bodyAt? (site :: path) = (f.callee? site).bind (·.bodyAt? path) := by
  unfold bodyAt?
  rw [nodeAt?, Option.map_bind]
  rfl

/-- The nodes on the way of a stack are there, each as it was or without samples, and the one at
its end is changed. All other nodes stay. The induction is on the frames that are inlined. -/
theorem bodyAt?_editAt (edit : Tally → Tally) (f : FunctionProfile) (frame : Frame)
    (inner : List Frame) (path : List Callsite) :
    (f.editAt edit frame inner).bodyAt? path
      = if path <+: pathBelow frame inner then
          let own := (f.bodyAt? path).getD
            (ofFrame ((frame :: inner).getD path.length default)).toBody
          some (if path = pathBelow frame inner
            then own.editAt (inner.getLastD frame).location edit else own)
        else f.bodyAt? path := by
  induction inner generalizing f frame path with
  | nil =>
    cases path with
    | nil => rfl
    | cons site path =>
      rw [if_neg (by simp [pathBelow])]
      rfl
  | cons callee inner ih =>
    cases path with
    | nil => simp [pathBelow, editAt, bodyAt?, nodeAt?]
    | cons site path =>
      have hcallee : (f.editAt edit frame (callee :: inner)).callee? site
          = if site = ⟨frame.location, callee.function⟩
            then some (((f.callee? ⟨frame.location, callee.function⟩).getD
              (ofFrame callee)).editAt edit callee inner)
            else f.callee? site :=
        Callees.get?_update f.callees _ site _
      rw [bodyAt?_cons, hcallee, bodyAt?_cons]
      by_cases hsite : site = ⟨frame.location, callee.function⟩
      · subst hsite
        rw [if_pos rfl, Option.bind_some, ih]
        simp only [pathBelow, List.cons_prefix_cons, true_and, List.cons.injEq, List.length_cons,
          List.getD_cons_succ, List.getLastD_cons]
        cases hget : f.callee? ⟨frame.location, callee.function⟩ with
        | some c => simp only [Option.getD_some, Option.bind_some]
        | none =>
          -- a callee that is new has no node below it
          simp only [Option.getD_none, Option.bind_none]
          cases path with
          | nil => rfl
          | cons site path =>
            have hnone : (ofFrame callee).bodyAt? (site :: path) = none := rfl
            rw [hnone]
            rfl
      · rw [if_neg hsite, if_neg]
        intro h
        exact hsite (List.cons_prefix_cons.1 h).1

end FunctionProfile

/-! ## The nodes of a store -/

namespace Store

/-- What the node at the end of a path holds itself. -/
def bodyAt? (s : Store) (name : String) (path : List Callsite) : Option Body :=
  (s.get? name).bind (·.bodyAt? path)

theorem bodyAt?_eq_map (s : Store) (name : String) (path : List Callsite) :
    s.bodyAt? name path = (s.nodeAt? name path).map (·.toBody) := by
  unfold bodyAt? nodeAt?
  rw [Option.map_bind]
  rfl

theorem entryCountAt?_eq_map (s : Store) (name : String) (path : List Callsite) :
    s.countAt? (.entry name path) = (s.bodyAt? name path).map (·.entryCount) := by
  rw [bodyAt?_eq_map, Option.map_map]
  rfl

theorem tallyAt?_eq_bind (s : Store) (name : String) (path : List Callsite)
    (location : Location) :
    s.tallyAt? name path location = (s.bodyAt? name path).bind (·.samples.get? location) := by
  unfold tallyAt?
  rw [bodyAt?_eq_map, Option.bind_map]
  rfl

theorem bodyAt?_insert (s : Store) (f : FunctionProfile) (q : String) (path : List Callsite) :
    (s.insert f).bodyAt? q path = if q = f.name then f.bodyAt? path else s.bodyAt? q path := by
  unfold bodyAt?
  rw [get?_insert]
  split <;> rfl

/-- A stack is followed if its function is known and it has neither no frames nor too many. -/
theorem isSome_editAt? (s : Store) (name : String) (stack : List Frame) (edit : Tally → Tally) :
    (s.editAt? name stack edit).isSome ↔
      (s.get? name).isSome ∧ 0 < stack.length ∧ stack.length ≤ maxInlineDepth + 1 := by
  have hlength := stack.length_reverse
  unfold editAt?
  cases s.get? name with
  | none => simp
  | some f =>
    cases hr : stack.reverse with
    | nil =>
      rw [hr] at hlength
      simp only [List.length_nil] at hlength
      simp [← hlength]
    | cons frame inner =>
      rw [hr, List.length_cons] at hlength
      simp only [Option.isSome_some, true_and]
      split <;> simp only [Option.isSome_some, Option.isSome_none, true_iff, Bool.false_eq_true,
        false_iff] <;> omega

variable {s s' : Store} {name : String} {stack : List Frame} {edit : Tally → Tally}

theorem bodyAt?_editAt? (h : s.editAt? name stack edit = some s') (q : String)
    (path : List Callsite) :
    s'.bodyAt? q path
      = if q = name ∧ path <+: stackPath stack then
          let own := (s.bodyAt? q path).getD
            (FunctionProfile.ofFrame (stackFrame stack path.length)).toBody
          some (if path = stackPath stack then own.editAt (stackLocation stack) edit else own)
        else s.bodyAt? q path := by
  unfold editAt? at h
  split at h
  · rename_i f frame inner hf hr
    split at h
    · cases h
      have hstack : stack = (frame :: inner).reverse := by rw [← hr, List.reverse_reverse]
      have hname : (f.editAt edit frame inner).name = name := by
        rw [← name_of_get? hf]
        cases inner <;> rfl
      rw [bodyAt?_insert, hname, hstack, stackPath_reverse, stackLocation_reverse]
      by_cases hq : q = name
      · subst hq
        have hbody : s.bodyAt? q path = f.bodyAt? path := by
          unfold bodyAt?
          rw [hf]
          rfl
        simp only [if_true, true_and, hbody, FunctionProfile.bodyAt?_editAt, stackFrame,
          List.reverse_reverse]
      · simp only [hq, false_and, if_false]
    · cases h
  · cases h

/-- A stack that is followed changes the tally at its end, and no other. -/
theorem tallyAt?_editAt? (h : s.editAt? name stack edit = some s') (q : String)
    (path : List Callsite) (location : Location) :
    s'.tallyAt? q path location
      = if q = name ∧ path = stackPath stack ∧ location = stackLocation stack
        then some (edit ((s.tallyAt? q path location).getD {}))
        else s.tallyAt? q path location := by
  have hnew : ∀ frame : Frame,
      (FunctionProfile.ofFrame frame).toBody.samples.get? location = none := fun _ => rfl
  rw [tallyAt?_eq_bind, tallyAt?_eq_bind, bodyAt?_editAt? h]
  by_cases hprefix : q = name ∧ path <+: stackPath stack
  · rw [if_pos hprefix]
    by_cases hpath : path = stackPath stack
    · simp only [hpath, if_true, Option.bind_some, Body.get?_editAt, hprefix.1, true_and]
      cases s.bodyAt? name (stackPath stack) with
      | none => simp only [Option.getD_none, hnew, Option.bind_none]
      | some b => simp only [Option.getD_some, Option.bind_some]
    · simp only [hpath, if_false, false_and, and_false, Option.bind_some]
      cases s.bodyAt? q path with
      | none => exact hnew _
      | some b => rfl
  · rw [if_neg hprefix, if_neg]
    rintro ⟨hq, hpath, -⟩
    exact hprefix ⟨hq, hpath ▸ List.prefix_rfl⟩

/-- No stack changes how often a node was entered. -/
theorem entryCountAt?_editAt? (h : s.editAt? name stack edit = some s') (q : String)
    (path : List Callsite) :
    (s'.countAt? (.entry q path)).getD 0 = (s.countAt? (.entry q path)).getD 0 := by
  rw [entryCountAt?_eq_map, entryCountAt?_eq_map, bodyAt?_editAt? h]
  split
  · have hnew : ∀ frame : Frame, (FunctionProfile.ofFrame frame).toBody.entryCount = 0 :=
      fun _ => rfl
    rw [Option.map_some, Option.getD_some]
    cases s.bodyAt? q path with
    | none => split <;> exact hnew (stackFrame stack path.length)
    | some b => split <;> rfl
  · rfl

/-- A stack that is followed makes the nodes on its way that are not there, and of the others it
changes counts only. -/
theorem bareAt?_editAt? (h : s.editAt? name stack edit = some s') (q : String)
    (path : List Callsite) :
    (s'.bodyAt? q path).map Body.bare
      = ((s.bodyAt? q path).map Body.bare).or
          (if q = name ∧ path <+: stackPath stack
            then some (FunctionProfile.ofFrame (stackFrame stack path.length)).toBody
            else none) := by
  rw [bodyAt?_editAt? h]
  by_cases hprefix : q = name ∧ path <+: stackPath stack
  · rw [if_pos hprefix, if_pos hprefix]
    by_cases hpath : path = stackPath stack
    · simp only [hpath, if_true, Option.map_some, Body.bare_editAt]
      cases s.bodyAt? q (stackPath stack) <;> rfl
    · simp only [hpath, if_false, Option.map_some]
      cases s.bodyAt? q path <;> rfl
  · rw [if_neg hprefix, if_neg hprefix, Option.or_none]

end Store

end SamplingProfile
