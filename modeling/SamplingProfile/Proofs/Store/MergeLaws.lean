-- The laws of merging. Stores that are merged one after the other come to the same as the later
-- ones merged first, and a weight may be given to each of them or to what they come to together. A
-- merge does the same on every level, to the counts of a location, to the locations of a node and
-- to the nodes of a store; so the laws are shown of a count and lifted from level to level.
import SamplingProfile.Proofs.Store.LegalTrees
import SamplingProfile.Proofs.Store.StackPaths

namespace SamplingProfile

/-! ## Joining by weight -/

section Joining

variable {α β ι : Type} {take : Count → α → α} {join : Count → α → α → α}

/-- What is at a place after one merge: what was there, joined by what comes to it, or what comes
taken `weight` times where nothing was. -/
def joinedWith? (take : Count → α → α) (join : Count → α → α → α) (weight : Count)
    (own? other? : Option α) : Option α :=
  match other? with
  | none => own?
  | some other =>
    some <| match own? with
      | none => take weight other
      | some own => join weight own other

/-- The laws of things that are taken some number of times, and joined by others so taken. The
weight may be given to two things one after the other, or to the two together. -/
structure JoinLaws (take : Count → α → α) (join : Count → α → α → α) : Prop where
  take_one : ∀ a, take 1 a = a
  join_take : ∀ weight a b, join weight (take weight a) b = take weight (join 1 a b)
  join_join : ∀ weight a b c, join weight (join weight a b) c = join weight a (join 1 b c)

theorem JoinLaws.joinedWith?_map (h : JoinLaws take join) (weight : Count) (a? b? : Option α) :
    joinedWith? take join weight (a?.map (take weight)) b?
      = (joinedWith? take join 1 a? b?).map (take weight) := by
  cases b? with
  | none => rfl
  | some b =>
    cases a? with
    | none => simp [joinedWith?, h.take_one]
    | some a => simp [joinedWith?, h.join_take]

theorem JoinLaws.joinedWith?_joinedWith? (h : JoinLaws take join) (weight : Count)
    (a? b? c? : Option α) :
    joinedWith? take join weight (joinedWith? take join weight a? b?) c?
      = joinedWith? take join weight a? (joinedWith? take join 1 b? c?) := by
  cases c? with
  | none => rfl
  | some c =>
    cases b? with
    | none => simp [joinedWith?, h.take_one]
    | some b =>
      cases a? with
      | none => simp [joinedWith?, h.join_take]
      | some a => simp [joinedWith?, h.join_join]

/-- The laws hold of things that are known by what they have at each place, if taking and joining
them is taking and joining what they have there. -/
theorem JoinLaws.of_view (h : JoinLaws take join) {takeAll : Count → β → β}
    {joinAll : Count → β → β → β} (view : β → ι → Option α)
    (hext : ∀ x y, (∀ i, view x i = view y i) → x = y)
    (htake : ∀ weight x i, view (takeAll weight x) i = (view x i).map (take weight))
    (hjoin : ∀ weight x y i,
      view (joinAll weight x y) i = joinedWith? take join weight (view x i) (view y i)) :
    JoinLaws takeAll joinAll where
  take_one x := by
    have hid : take 1 = id := funext h.take_one
    apply hext
    intro i
    rw [htake, hid, Option.map_id_apply]
  join_take weight x y := by
    apply hext
    intro i
    rw [hjoin, htake, htake, hjoin, h.joinedWith?_map]
  join_join weight x y z := by
    apply hext
    intro i
    rw [hjoin, hjoin, hjoin, hjoin, h.joinedWith?_joinedWith?]

/-- The laws hold of maps whose values are joined key by key, if a value that is new may as well
join an empty one. -/
theorem JoinLaws.sortedMap {κ : Type} [Ord κ] [Std.TransOrd κ] [Std.LawfulEqOrd κ]
    (h : JoinLaws take join) {zero : α} (hzero : ∀ weight a, join weight zero a = take weight a) :
    JoinLaws (fun weight (m : SortedMap κ α) => m.mapValues (take weight))
      (fun weight own other => own.mergeWith (fun own? new => join weight (own?.getD zero) new)
        other) := by
  refine h.of_view SortedMap.get? (fun _ _ => SortedMap.ext) ?_ ?_
  · exact fun weight m q => SortedMap.get?_mapValues m (take weight) q
  · intro weight own other q
    rw [SortedMap.get?_mergeWith]
    cases other.get? q with
    | none => rfl
    | some new => cases own.get? q <;> simp [joinedWith?, hzero]

end Joining

/-! ## Counts -/

/-- A sum that is held at the largest count may be taken part by part. -/
theorem Count.times_plus (a b weight : Count) :
    (a.plus b).times weight = (a.times weight).plus (b.times weight) := by
  apply UInt64.toNat_inj.1
  simp only [toNat_times, toNat_plus]
  rcases Nat.eq_zero_or_pos weight.toNat with hzero | hpos
  · simp [hzero]
  · have hsplit := Nat.add_mul a.toNat b.toNat weight.toNat
    have hsum := Nat.le_mul_of_pos_right (a.toNat + b.toNat) hpos
    have hlimit := Nat.le_mul_of_pos_right limit hpos
    rcases Nat.le_total (a.toNat + b.toNat) limit with hfits | hover
    · rw [Nat.min_eq_left hfits]
      omega
    · rw [Nat.min_eq_right hover]
      omega

namespace Mode

theorem times_combine (mode : Mode) (a b weight : Count) :
    (mode.combine a b).times weight = mode.combine (a.times weight) (b.times weight) := by
  cases mode with
  | sum => exact Count.times_plus a b weight
  | max =>
    apply UInt64.toNat_inj.1
    simp only [combine, Count.toNat_times, Count.toNat_max, ← Nat.mul_max_mul_right]
    omega

theorem combine_assoc (mode : Mode) (a b c : Count) :
    mode.combine (mode.combine a b) c = mode.combine a (mode.combine b c) := by
  apply UInt64.toNat_inj.1
  have ha := a.toNat_le_limit
  have hb := b.toNat_le_limit
  have hc := c.toNat_le_limit
  cases mode with
  | sum =>
    simp only [combine, Count.toNat_plus]
    omega
  | max =>
    simp only [combine, Count.toNat_max]
    omega

/-- The laws of a count. -/
theorem joinLaws (mode : Mode) :
    JoinLaws (fun weight count => count.times weight)
      (fun weight own new => mode.combine own (new.times weight)) where
  take_one := Count.times_one
  join_take weight a b := by rw [Count.times_one, times_combine]
  join_join weight a b c := by rw [Count.times_one, times_combine, combine_assoc]

end Mode

/-! ## Locations -/

namespace Tally

theorem targetLaws (mode : Mode) :
    JoinLaws (fun weight (targets : SortedMap String Count) => targets.mapValues (·.times weight))
      (fun weight own other => own.mergeWith
        (fun count new => mode.combine (count.getD 0) (new.times weight)) other) :=
  mode.joinLaws.sortedMap fun weight count => mode.combine_zero (count.times weight)

/-- The laws of a tally. The number of instructions takes no part in a weight. -/
theorem joinLaws (mode : Mode) : JoinLaws scale (merge mode) where
  take_one := scale_one
  join_take weight a b := by
    simp only [merge, scale, mode.joinLaws.join_take, (targetLaws mode).join_take]
  join_join weight a b c := by
    have hinstructions : max (max a.instructions b.instructions) c.instructions
        = max a.instructions (max b.instructions c.instructions) :=
      Mode.max.combine_assoc _ _ _
    simp only [merge, mode.joinLaws.join_join, (targetLaws mode).join_join, hinstructions]

/-- A tally that joins an empty one is the tally that is copied. -/
theorem merge_empty (mode : Mode) (weight : Count) (t : Tally) :
    ({} : Tally).merge mode weight t = t.scale weight := by
  have hinstructions : max 0 t.instructions = t.instructions := Mode.max.combine_zero _
  simp only [merge, scale, SortedMap.empty_mergeWith, Option.getD_none, Mode.combine_zero,
    hinstructions]

end Tally

/-! ## Nodes -/

namespace Body

theorem sampleLaws (mode : Mode) :
    JoinLaws (fun weight (samples : SortedMap Location Tally) =>
        samples.mapValues (Tally.scale weight))
      (fun weight own other => own.mergeWith
        (fun tally new => (tally.getD {}).merge mode weight new) other) :=
  (Tally.joinLaws mode).sortedMap (Tally.merge_empty mode)

/-- The laws of what a node holds itself. Its place in the source is that of the first of the three
that has one, whichever two are joined first. -/
theorem joinLaws (mode : Mode) : JoinLaws scale (merge mode) where
  take_one := scale_one
  join_take weight a b := by
    simp only [merge, scale, mode.joinLaws.join_take, (sampleLaws mode).join_take]
    by_cases ha : a.file = "" ∧ a.directory = "" <;> simp [ha]
  join_join weight a b c := by
    simp only [merge, mode.joinLaws.join_join, (sampleLaws mode).join_join]
    by_cases ha : a.file = "" ∧ a.directory = ""
    · simp only [if_pos ha]
      by_cases hb : b.file = "" ∧ b.directory = ""
      · simp only [if_pos hb]
      · simp only [if_neg hb]
    · simp only [if_neg ha]

end Body

/-- A callee of the first level has fewer levels below it than the forest has. -/
theorem Forest.height_lt_of_calleeAt? {f : Forest} (h : f.Ordered) :
    ∀ site c, f.calleeAt? site h = some c → c.height < f.height := by
  induction f with
  | nil => exact fun _ _ hc => nomatch hc
  | cons site body inner rest _ ih =>
    rw [forall_calleeAt?_cons h]
    refine ⟨?_, fun q c hc => ?_⟩
    · simp only [FunctionProfile.height, height]
      omega
    · have := ih h.2.2 q c hc
      simp only [height]
      omega

namespace FunctionProfile

theorem height_lt_of_callee? {f c : FunctionProfile} {site : Callsite}
    (h : f.callee? site = some c) : c.height < f.height :=
  Forest.height_lt_of_calleeAt? f.callees.ordered site c h

theorem toBody_weighted (weight : Count) (f : FunctionProfile) :
    (f.weighted weight).toBody = f.toBody.scale weight := by
  unfold weighted
  split
  · rename_i hone
    rw [hone, Body.scale_one]
  · rfl

/-- Where there is the same at every node, there is a function on both sides or on none. -/
theorem eq_of_bind_bodyAt?_eq {f? g? : Option FunctionProfile}
    (h : ∀ path, f?.bind (·.bodyAt? path) = g?.bind (·.bodyAt? path))
    (heq : ∀ f g, f? = some f → g? = some g → (∀ path, f.bodyAt? path = g.bodyAt? path) → f = g) :
    f? = g? := by
  have hroot : ∀ f : FunctionProfile, f.bodyAt? [] = some f.toBody := fun _ => rfl
  cases f? with
  | none =>
    cases g? with
    | none => rfl
    | some g => simpa [hroot] using h []
  | some f =>
    cases g? with
    | none => simpa [hroot] using h []
    | some g => rw [heq f g rfl rfl h]

/-- Functions with the same at every node are equal. The induction is on the depth of the tree. -/
theorem eq_of_bodyAt?_eq {f g : FunctionProfile} (h : ∀ path, f.bodyAt? path = g.bodyAt? path) :
    f = g := by
  have hbody : f.toBody = g.toBody := Option.some.inj (h [])
  have hcallees : f.callees = g.callees := by
    apply Callees.eq_of_get?_eq
    intro site
    apply eq_of_bind_bodyAt?_eq
    · intro path
      have hpath := h (site :: path)
      rwa [bodyAt?_cons, bodyAt?_cons] at hpath
    · intro c d hc _ hbelow
      have hlower := height_lt_of_callee? hc
      exact eq_of_bodyAt?_eq hbelow
  cases f
  cases g
  cases hbody
  cases hcallees
  rfl
termination_by f.height

end FunctionProfile

namespace Store

/-- Stores with the same at every node are equal. -/
theorem eq_of_bodyAt?_eq {s t : Store}
    (h : ∀ name path, s.bodyAt? name path = t.bodyAt? name path) : s = t := by
  apply ext
  intro name
  exact FunctionProfile.eq_of_bind_bodyAt?_eq (h name) fun f g _ _ hnodes =>
    FunctionProfile.eq_of_bodyAt?_eq hnodes

/-- A merge joins what the nodes hold. -/
theorem bodyAt?_mergeWeighted (mode : Mode) (weight : Count) (s other : Store) (name : String)
    (path : List Callsite) :
    (s.mergeWeighted mode weight other).bodyAt? name path
      = joinedWith? Body.scale (Body.merge mode) weight (s.bodyAt? name path)
          (other.bodyAt? name path) := by
  simp only [bodyAt?_eq_map, nodeAt?_mergeWeighted]
  cases other.nodeAt? name path with
  | none => rfl
  | some g =>
    cases s.nodeAt? name path with
    | none => simp [FunctionProfile.joined?, joinedWith?, FunctionProfile.toBody_weighted]
    | some f => rfl

end Store

/-! ## Places in the source -/

/-- Where a node stands in the source, if it says so: its directory, its file and its first line. A
node with neither a directory nor a file does not. -/
def Body.source? (b : Body) : Option (String × String × UInt32) :=
  if b.file = "" ∧ b.directory = "" then none else some (b.directory, b.file, b.startLine)

theorem Body.source?_merge (mode : Mode) (weight : Count) (own other : Body) :
    (own.merge mode weight other).source? = own.source?.or other.source? := by
  unfold source? merge
  by_cases hown : own.file = "" ∧ own.directory = "" <;> simp [hown]

namespace Store

/-- Where a node stands in the source, if the store has the node and knows. -/
def sourceAt? (s : Store) (name : String) (path : List Callsite) :
    Option (String × String × UInt32) :=
  (s.bodyAt? name path).bind Body.source?

theorem sourceAt?_mergeWeighted (mode : Mode) (weight : Count) (s other : Store) (name : String)
    (path : List Callsite) :
    (s.mergeWeighted mode weight other).sourceAt? name path
      = (s.sourceAt? name path).or (other.sourceAt? name path) := by
  unfold sourceAt?
  rw [bodyAt?_mergeWeighted]
  cases other.bodyAt? name path with
  | none => simp [joinedWith?]
  | some b =>
    cases s.bodyAt? name path with
    | none => rfl
    | some own => exact Body.source?_merge mode weight own b

theorem sourceAt?_foldl (mode : Mode) (inputs : List (Count × Store)) (s : Store) (name : String)
    (path : List Callsite) :
    (inputs.foldl (fun s input => s.mergeWeighted mode input.1 input.2) s).sourceAt? name path
      = (s.sourceAt? name path).or
          (inputs.findSome? fun input => input.2.sourceAt? name path) := by
  induction inputs generalizing s with
  | nil => simp
  | cons input inputs ih =>
    rw [List.foldl_cons, ih, sourceAt?_mergeWeighted, Option.or_assoc, List.findSome?_cons]
    cases input.2.sourceAt? name path <;> simp

/-! ## The laws of stores -/

/-- Nothing comes of an empty store, and into one every store comes as it is. -/
theorem mergeWeighted_empty (mode : Mode) (weight : Count) (s : Store) :
    s.mergeWeighted mode weight ∅ = s := rfl

theorem empty_mergeWeighted (mode : Mode) (s : Store) :
    (∅ : Store).mergeWeighted mode 1 s = s := by
  apply eq_of_bodyAt?_eq
  intro name path
  rw [bodyAt?_mergeWeighted]
  cases s.bodyAt? name path with
  | none => rfl
  | some b => exact congrArg some b.scale_one

/-- Two stores merged into a third one after the other, each by the same weight, come to what the
two come to together, merged into it by that weight. An empty store changes nothing, on either
side. And when stores are merged, by any weights, each node stands in the source where the first
store says that knows its place there. -/
theorem merging_is_associative (mode : Mode) :
    (∀ weight (a b c : Store),
      (a.mergeWeighted mode weight b).mergeWeighted mode weight c
        = a.mergeWeighted mode weight (b.mergeWeighted mode 1 c)) ∧
    (∀ s : Store, (∅ : Store).mergeWeighted mode 1 s = s) ∧
    (∀ weight (s : Store), s.mergeWeighted mode weight ∅ = s) ∧
    ∀ inputs name path, (mergeAll mode inputs).sourceAt? name path
      = inputs.findSome? fun input => input.2.sourceAt? name path := by
  refine ⟨fun weight a b c => ?_, empty_mergeWeighted mode, mergeWeighted_empty mode,
    fun inputs name path => ?_⟩
  · apply eq_of_bodyAt?_eq
    intro name path
    simp only [bodyAt?_mergeWeighted]
    exact (Body.joinLaws mode).joinedWith?_joinedWith? weight _ _ _
  · exact sourceAt?_foldl mode inputs ∅ name path

end Store

end SamplingProfile
