-- What the nodes of a store hold, one node after the other: first the function, then the callees
-- below it. What is put at a place that was free comes in, and nothing else changes.
import SamplingProfile.Proofs.Store.NameRules

namespace SamplingProfile

/-! ## Putting in what is new -/

namespace SortedMap

variable {κ β : Type} [Ord κ] [Std.TransOrd κ] [Std.LawfulEqOrd κ]

omit [Std.TransOrd κ] in
/-- What is put under a key takes the place of what was there, or a free place. -/
theorem putAt_eq_append (key : κ) (value : β) (entries : List (κ × β)) :
    ∃ front back, putAt key value entries = front ++ (key, value) :: back ∧
      entries = front ++ ((valueAt? key entries).map fun old => (key, old)).toList ++ back := by
  induction entries with
  | nil => exact ⟨[], [], rfl, rfl⟩
  | cons e rest ih =>
    obtain ⟨k, b⟩ := e
    unfold putAt valueAt?
    split
    · exact ⟨[], (k, b) :: rest, rfl, rfl⟩
    · rename_i heq
      rw [Std.compare_eq_iff_eq] at heq
      exact ⟨[], rest, rfl, by rw [heq]; rfl⟩
    · obtain ⟨front, back, hput, hrest⟩ := ih
      refine ⟨(k, b) :: front, back, congrArg ((k, b) :: ·) hput, ?_⟩
      exact congrArg ((k, b) :: ·) hrest

omit [Std.TransOrd κ] in
theorem perm_putAt {key : κ} {value : β} {entries : List (κ × β)}
    (h : valueAt? key entries = none) :
    (putAt key value entries).Perm ((key, value) :: entries) := by
  obtain ⟨front, back, hput, hentries⟩ := putAt_eq_append key value entries
  rw [h, Option.map_none, Option.toList_none, List.append_nil] at hentries
  rw [hput, hentries]
  exact List.perm_middle

theorem values_insert (m : SortedMap κ β) (key : κ) (value : β) :
    ∃ front back, (m.insert key value).values = front ++ value :: back ∧
      m.values = front ++ (m.get? key).toList ++ back := by
  obtain ⟨front, back, hput, hentries⟩ := putAt_eq_append key value m.entries
  refine ⟨front.map Prod.snd, back.map Prod.snd, ?_, ?_⟩
  · simp only [values, insert, hput, List.map_append, List.map_cons]
  · have hvalues := congrArg (List.map Prod.snd) hentries
    rw [List.map_append, List.map_append] at hvalues
    rw [values, hvalues, get?]
    cases valueAt? key m.entries <;> rfl

theorem perm_insert {m : SortedMap κ β} {key : κ} (h : m.get? key = none) (value : β) :
    (m.insert key value).entries.Perm ((key, value) :: m.entries) := perm_putAt h

end SortedMap

/-! ## Trees -/

/-- What each node holds itself, a node before its callees. -/
def Forest.bodies : Forest → List Body
  | nil => []
  | cons _ body inner rest => body :: (inner.bodies ++ rest.bodies)

/-- What the function holds itself, and each callee below it. -/
def FunctionProfile.bodies (f : FunctionProfile) : List Body :=
  f.toBody :: f.callees.forest.bodies

namespace Forest

theorem length_bodies (f : Forest) : f.bodies.length = f.size := by
  induction f with
  | nil => rfl
  | cons site body inner rest ih ih' =>
    rw [bodies, List.length_cons, List.length_append, ih, ih', size]
    omega

theorem counts_eq_flatMap (f : Forest) : f.counts = f.bodies.flatMap Body.counts := by
  induction f with
  | nil => rfl
  | cons site body inner rest ih ih' =>
    rw [counts, bodies, List.flatMap_cons, List.flatMap_append, ih, ih']

/-- The nodes of a callee that is put below a callsite take the place of those that were there. -/
theorem bodies_putAt (site : Callsite) (body : Body) (callees : Forest) {f : Forest}
    (h : f.Ordered) :
    ∃ front back, (f.putAt site body callees).bodies = front ++ (body :: callees.bodies) ++ back ∧
      f.bodies = front ++ (f.calleeAt? site h).elim [] FunctionProfile.bodies ++ back := by
  induction f with
  | nil => exact ⟨[], [], rfl, rfl⟩
  | cons s b inner rest _ ih =>
    unfold putAt calleeAt?
    split
    · exact ⟨[], (cons s b inner rest).bodies, rfl, rfl⟩
    · exact ⟨[], rest.bodies, rfl, rfl⟩
    · obtain ⟨front, back, hput, hrest⟩ := ih h.2.2
      refine ⟨b :: inner.bodies ++ front, back, ?_, ?_⟩
      · simp only [bodies, hput, List.cons_append, List.append_assoc]
      · simp only [bodies, hrest, List.cons_append, List.append_assoc]

theorem perm_bodies_putAt {site : Callsite} {body : Body} {callees f : Forest} (h : f.Ordered)
    (hnew : f.calleeAt? site h = none) :
    (f.putAt site body callees).bodies.Perm (body :: callees.bodies ++ f.bodies) := by
  obtain ⟨front, back, hput, hbodies⟩ := bodies_putAt site body callees h
  rw [hnew, Option.elim_none, List.append_nil] at hbodies
  rw [hput, hbodies, List.append_assoc]
  exact List.perm_append_comm_assoc _ _ _

theorem bodies_subset {f : Forest} (h : f.Ordered) :
    ∀ site c, f.calleeAt? site h = some c → c.bodies ⊆ f.bodies := by
  induction f with
  | nil => exact fun _ _ hc => nomatch hc
  | cons site body inner rest _ ih =>
    refine (forall_calleeAt?_cons h).2 ⟨?_, fun q c hc => ?_⟩
    · exact List.subset_append_left (body :: inner.bodies) rest.bodies
    · exact List.subset_append_of_subset_right (body :: inner.bodies) (ih h.2.2 q c hc)

/-- What is held somewhere in a forest a node on a path that begins in it holds. -/
theorem exists_of_mem_bodies {f : Forest} (h : f.Ordered) {b : Body} (hb : b ∈ f.bodies) :
    ∃ site c, f.calleeAt? site h = some c ∧
      ∃ path node, c.nodeAt? path = some node ∧ node.toBody = b := by
  induction f with
  | nil => cases hb
  | cons site body inner rest ih ih' =>
    have hfirst : (cons site body inner rest).calleeAt? site h
        = some { body with callees := ⟨inner, h.2.1⟩ } :=
      (calleeAt?_cons_eq_some_iff h).2 (.inl ⟨rfl, rfl⟩)
    rw [bodies, List.mem_cons, List.mem_append] at hb
    rcases hb with rfl | hb | hb
    · exact ⟨site, _, hfirst, [], _, rfl, rfl⟩
    · obtain ⟨q, c, hc, path, node, hnode, hbody⟩ := ih h.2.1 hb
      exact ⟨site, _, hfirst, q :: path, node,
        FunctionProfile.nodeAt?_cons_eq_some_iff.2 ⟨c, hc, hnode⟩, hbody⟩
    · obtain ⟨q, c, hc, hnode⟩ := ih' h.2.2 hb
      exact ⟨q, c, (calleeAt?_cons_eq_some_iff h).2 (.inr hc), hnode⟩

end Forest

theorem Callees.bodies_insert (c : Callees) (site : Callsite) (callee : FunctionProfile) :
    ∃ front back, (c.insert site callee).forest.bodies = front ++ callee.bodies ++ back ∧
      c.forest.bodies = front ++ (c.get? site).elim [] FunctionProfile.bodies ++ back :=
  Forest.bodies_putAt site callee.toBody callee.callees.forest c.ordered

namespace FunctionProfile

variable {f c : FunctionProfile} {site : Callsite}

theorem length_bodies (f : FunctionProfile) : f.bodies.length = f.nodeCount := by
  rw [bodies, List.length_cons, Forest.length_bodies, nodeCount, Nat.add_comm]

theorem counts_eq_flatMap (f : FunctionProfile) : f.counts = f.bodies.flatMap Body.counts := by
  rw [counts, bodies, List.flatMap_cons, Forest.counts_eq_flatMap]

theorem perm_bodies_addCallee (h : f.callee? site = none) (c : FunctionProfile) :
    ({ f with callees := f.callees.insert site c } : FunctionProfile).bodies.Perm
      (c.bodies ++ f.bodies) :=
  ((Forest.perm_bodies_putAt f.callees.ordered h).cons f.toBody).trans List.perm_middle.symm

theorem toBody_mem_bodies {path : List Callsite} {node : FunctionProfile}
    (h : f.nodeAt? path = some node) : node.toBody ∈ f.bodies := by
  induction path generalizing f with
  | nil =>
    cases h
    exact List.mem_cons_self
  | cons site path ih =>
    obtain ⟨c, hc, hnode⟩ := nodeAt?_cons_eq_some_iff.1 h
    exact List.mem_cons_of_mem _ (Forest.bodies_subset f.callees.ordered site c hc (ih hnode))

theorem mem_bodies_iff {b : Body} :
    b ∈ f.bodies ↔ ∃ path node, f.nodeAt? path = some node ∧ node.toBody = b := by
  constructor
  · intro hb
    rcases List.mem_cons.1 hb with rfl | hb
    · exact ⟨[], f, rfl, rfl⟩
    · obtain ⟨site, c, hc, path, node, hnode, hbody⟩ :=
        Forest.exists_of_mem_bodies f.callees.ordered hb
      exact ⟨site :: path, node, nodeAt?_cons_eq_some_iff.2 ⟨c, hc, hnode⟩, hbody⟩
  · rintro ⟨path, node, hnode, rfl⟩
    exact toBody_mem_bodies hnode

end FunctionProfile

/-! ## Stores -/

namespace Store

variable {s : Store} {f : FunctionProfile}

/-- What each function of the store holds itself, and each callee below it. -/
def bodies (s : Store) : List Body := s.toList.flatMap FunctionProfile.bodies

theorem sampleCounts_eq_flatMap (s : Store) : s.sampleCounts = s.bodies.flatMap Body.counts := by
  have hcounts : FunctionProfile.sampleCounts = fun f => f.bodies.flatMap Body.counts := by
    funext f
    rw [FunctionProfile.sampleCounts_eq_counts, FunctionProfile.counts_eq_flatMap]
  rw [sampleCounts, bodies, List.flatMap_assoc, hcounts]

theorem length_bodies (s : Store) :
    s.bodies.length = (s.toList.map FunctionProfile.nodeCount).sum := by
  simp [bodies, List.length_flatMap, FunctionProfile.length_bodies]

theorem perm_bodies_insert (h : s.get? f.name = none) :
    (s.insert f).bodies.Perm (f.bodies ++ s.bodies) :=
  ((SortedMap.perm_insert h f).map Prod.snd).flatMap_right _

theorem toBody_mem_bodies {name : String} {path : List Callsite} {node : FunctionProfile}
    (h : s.nodeAt? name path = some node) : node.toBody ∈ s.bodies := by
  obtain ⟨f, hf, hnode⟩ := Option.bind_eq_some_iff.1 h
  refine List.mem_flatMap.2 ⟨f, mem_toList_iff.2 ?_, FunctionProfile.toBody_mem_bodies hnode⟩
  rwa [name_of_get? hf]

theorem mem_bodies_iff {b : Body} :
    b ∈ s.bodies ↔ ∃ name path node, s.nodeAt? name path = some node ∧ node.toBody = b := by
  constructor
  · intro hb
    obtain ⟨f, hf, hb⟩ := List.mem_flatMap.1 hb
    obtain ⟨path, node, hnode, hbody⟩ := FunctionProfile.mem_bodies_iff.1 hb
    exact ⟨f.name, path, node, Option.bind_eq_some_iff.2 ⟨f, mem_toList_iff.1 hf, hnode⟩, hbody⟩
  · rintro ⟨name, path, node, hnode, rfl⟩
    exact toBody_mem_bodies hnode

theorem tally_mem_bodies {name : String} {path : List Callsite} {location : Location}
    {tally : Tally} (h : s.tallyAt? name path location = some tally) :
    ∃ b ∈ s.bodies, tally ∈ b.samples.values := by
  obtain ⟨node, hnode, htally⟩ := Option.bind_eq_some_iff.1 h
  exact ⟨node.toBody, toBody_mem_bodies hnode, SortedMap.mem_values_iff.2 ⟨location, htally⟩⟩

end Store

end SamplingProfile
