-- Rules for the names in a store: one for functions, one for callees and one for what is called
-- indirectly. Trees tell of them node by node, and merging is told place by place; here the two are
-- shown to say the same. Merging makes no place of its own, so it keeps to every rule.
import SamplingProfile.Proofs.Store.LegalTrees
import SamplingProfile.Proofs.Store.MergedCounts

namespace SamplingProfile

variable {function callee target function' callee' target' : String → Prop}

/-! ## Names in trees -/

/-- What a node calls keeps to a rule. -/
def Body.TargetsObey (target : String → Prop) (b : Body) : Prop :=
  ∀ sample ∈ b.samples.entries, ∀ t ∈ sample.2.targets.entries, target t.1

instance [DecidablePred target] (b : Body) : Decidable (b.TargetsObey target) :=
  inferInstanceAs (Decidable (∀ sample ∈ b.samples.entries, ∀ t ∈ _, target _))

theorem Body.targetsObey_iff {b : Body} :
    b.TargetsObey target ↔ ∀ location tally, b.samples.get? location = some tally →
      ∀ called count, tally.targets.get? called = some count → target called := by
  unfold TargetsObey
  simp only [Prod.forall, SortedMap.mem_entries_iff]

/-- The names of callees at every depth, and of what they call, keep to the rules. -/
def Forest.NamesObey (callee target : String → Prop) : Forest → Prop
  | nil => True
  | cons site body inner rest =>
    callee site.callee ∧ body.TargetsObey target ∧ inner.NamesObey callee target ∧
      rest.NamesObey callee target

instance Forest.decidableNamesObey [DecidablePred callee] [DecidablePred target] :
    (f : Forest) → Decidable (f.NamesObey callee target)
  | nil => inferInstanceAs (Decidable True)
  | cons site body inner rest =>
    have := inner.decidableNamesObey
    have := rest.decidableNamesObey
    inferInstanceAs (Decidable (callee site.callee ∧ body.TargetsObey target ∧ _ ∧ _))

/-- The names below a function keep to the rules. -/
def FunctionProfile.NamesObey (callee target : String → Prop) (f : FunctionProfile) : Prop :=
  f.toBody.TargetsObey target ∧ f.callees.forest.NamesObey callee target

instance [DecidablePred callee] [DecidablePred target] (f : FunctionProfile) :
    Decidable (f.NamesObey callee target) :=
  inferInstanceAs (Decidable (_ ∧ _))

namespace FunctionProfile

/-- A forest keeps to the rules when each callee of the first level does. -/
theorem forest_namesObey_iff {forest : Forest} (h : forest.Ordered) :
    forest.NamesObey callee target ↔ ∀ site c, forest.calleeAt? site h = some c →
      callee site.callee ∧ c.NamesObey callee target := by
  induction forest with
  | nil => exact ⟨fun _ _ _ hc => (nomatch hc), fun _ => trivial⟩
  | cons site body inner rest _ ih =>
    rw [Forest.forall_calleeAt?_cons h, ← ih h.2.2]
    constructor
    · rintro ⟨hname, hbody, hinner, hrest⟩
      exact ⟨⟨hname, hbody, hinner⟩, hrest⟩
    · rintro ⟨⟨hname, hbody, hinner⟩, hrest⟩
      exact ⟨hname, hbody, hinner, hrest⟩

variable {f : FunctionProfile}

theorem namesObey_iff :
    f.NamesObey callee target ↔ f.toBody.TargetsObey target ∧
      ∀ site c, f.callee? site = some c → callee site.callee ∧ c.NamesObey callee target :=
  and_congr_right' (forest_namesObey_iff f.callees.ordered)

theorem namesObey_ofName (name : String) : (ofName name).NamesObey callee target :=
  ⟨fun _ hsample => (nomatch hsample), trivial⟩

theorem nodeAt?_cons_eq_some_iff {site : Callsite} {path : List Callsite} {node : FunctionProfile} :
    f.nodeAt? (site :: path) = some node ↔
      ∃ c, f.callee? site = some c ∧ c.nodeAt? path = some node :=
  Option.bind_eq_some_iff

theorem NamesObey.nodeAt? {path : List Callsite} {node : FunctionProfile}
    (h : f.NamesObey callee target) (hnode : f.nodeAt? path = some node) :
    (∀ site ∈ path, callee site.callee) ∧ node.toBody.TargetsObey target := by
  induction path generalizing f with
  | nil =>
    cases hnode
    exact ⟨fun _ hsite => (nomatch hsite), h.1⟩
  | cons site path ih =>
    obtain ⟨c, hc, hnode⟩ := nodeAt?_cons_eq_some_iff.1 hnode
    obtain ⟨hname, hbelow⟩ := (namesObey_iff.1 h).2 site c hc
    obtain ⟨hpath, hbody⟩ := ih hbelow hnode
    exact ⟨List.forall_mem_cons.2 ⟨hname, hpath⟩, hbody⟩

/-- The names of a forest are met on the paths that begin in it. -/
theorem forest_namesObey_of_nodeAt? {forest : Forest} (h : forest.Ordered)
    (hall : ∀ site c, forest.calleeAt? site h = some c → ∀ path node,
      c.nodeAt? path = some node →
        (∀ s ∈ site :: path, callee s.callee) ∧ node.toBody.TargetsObey target) :
    forest.NamesObey callee target := by
  induction forest with
  | nil => trivial
  | cons site body inner rest ih ih' =>
    obtain ⟨hfirst, hothers⟩ := (Forest.forall_calleeAt?_cons h).1 hall
    obtain ⟨hname, hbody⟩ := hfirst [] _ rfl
    refine ⟨hname site List.mem_cons_self, hbody, ih h.2.1 fun q c hc path node hnode => ?_,
      ih' h.2.2 hothers⟩
    obtain ⟨hpath, hlast⟩ := hfirst _ _ (nodeAt?_cons_eq_some_iff.2 ⟨c, hc, hnode⟩)
    exact ⟨fun s hs => hpath s (List.mem_cons_of_mem site hs), hlast⟩

/-- The names below a function are met on the paths from it. -/
theorem namesObey_iff_nodeAt? :
    f.NamesObey callee target ↔ ∀ path node, f.nodeAt? path = some node →
      (∀ site ∈ path, callee site.callee) ∧ node.toBody.TargetsObey target := by
  constructor
  · exact fun h path node hnode => h.nodeAt? hnode
  · intro h
    refine ⟨(h [] f rfl).2, forest_namesObey_of_nodeAt? f.callees.ordered ?_⟩
    intro site c hc path node hnode
    exact h (site :: path) node (nodeAt?_cons_eq_some_iff.2 ⟨c, hc, hnode⟩)

end FunctionProfile

/-! ## Names at places -/

/-- The names of a place keep to the rules: that of the function, those of the callees on the way
down to a node, and that of what a location calls. -/
def CountPlace.Obeys (function callee target : String → Prop) : CountPlace → Prop
  | .entry name path => function name ∧ ∀ site ∈ path, callee site.callee
  | .sample name path _ => function name ∧ ∀ site ∈ path, callee site.callee
  | .target name path _ called =>
    function name ∧ (∀ site ∈ path, callee site.callee) ∧ target called

theorem CountPlace.Obeys.mono {place : CountPlace} (h : place.Obeys function callee target)
    (hfunction : ∀ name, function name → function' name)
    (hcallee : ∀ name, callee name → callee' name)
    (htarget : ∀ name, target name → target' name) : place.Obeys function' callee' target' := by
  cases place with
  | entry name path => exact ⟨hfunction _ h.1, fun site hsite => hcallee _ (h.2 site hsite)⟩
  | sample name path location =>
    exact ⟨hfunction _ h.1, fun site hsite => hcallee _ (h.2 site hsite)⟩
  | target name path location called =>
    exact ⟨hfunction _ h.1, fun site hsite => hcallee _ (h.2.1 site hsite), htarget _ h.2.2⟩

namespace Store

variable {s : Store}

/-- The names at all places of a store keep to the rules. -/
def NamesObey (function callee target : String → Prop) (s : Store) : Prop :=
  ∀ place, (s.countAt? place).isSome → place.Obeys function callee target

theorem NamesObey.mono (h : s.NamesObey function callee target)
    (hfunction : ∀ name, function name → function' name)
    (hcallee : ∀ name, callee name → callee' name)
    (htarget : ∀ name, target name → target' name) : s.NamesObey function' callee' target' :=
  fun place hplace => (h place hplace).mono hfunction hcallee htarget

/-- What stores are merged to has no place that none of them has. -/
theorem namesObey_mergeAll (mode : Mode) {inputs : List (Count × Store)}
    (h : ∀ input ∈ inputs, input.2.NamesObey function callee target) :
    (mergeAll mode inputs).NamesObey function callee target := by
  intro place hplace
  rw [(gathered_countAt? mode inputs place).isSome_iff, CountPlace.parts_ne_nil_iff] at hplace
  obtain ⟨input, hinput, hsome⟩ := hplace
  exact h input hinput place hsome

/-- The names of a store are those of its nodes, and of what these call. -/
theorem namesObey_iff_nodes :
    s.NamesObey function callee target ↔ ∀ name path node, s.nodeAt? name path = some node →
      function name ∧ (∀ site ∈ path, callee site.callee) ∧ node.toBody.TargetsObey target := by
  simp only [Body.targetsObey_iff]
  constructor
  · intro h name path node hnode
    have hentry : (s.countAt? (.entry name path)).isSome := by
      rw [countAt?, hnode]
      rfl
    obtain ⟨hname, hpath⟩ := h _ hentry
    refine ⟨hname, hpath, fun location tally htally called count hcount => ?_⟩
    have hcalled : (s.countAt? (.target name path location called)).isSome := by
      rw [countAt?, tallyAt?, hnode, Option.bind_some, htally, Option.bind_some, hcount]
      rfl
    exact (h _ hcalled).2.2
  · intro h place hplace
    cases place with
    | entry name path =>
      rw [countAt?, Option.isSome_map, Option.isSome_iff_exists] at hplace
      obtain ⟨node, hnode⟩ := hplace
      obtain ⟨hname, hpath, -⟩ := h name path node hnode
      exact ⟨hname, hpath⟩
    | sample name path location =>
      rw [countAt?, Option.isSome_map, Option.isSome_iff_exists] at hplace
      obtain ⟨tally, htally⟩ := hplace
      obtain ⟨node, hnode, -⟩ := Option.bind_eq_some_iff.1 htally
      obtain ⟨hname, hpath, -⟩ := h name path node hnode
      exact ⟨hname, hpath⟩
    | target name path location called =>
      rw [countAt?, Option.isSome_iff_exists] at hplace
      obtain ⟨count, hcount⟩ := hplace
      obtain ⟨tally, htally, hcount⟩ := Option.bind_eq_some_iff.1 hcount
      obtain ⟨node, hnode, htally⟩ := Option.bind_eq_some_iff.1 htally
      obtain ⟨hname, hpath, hcalled⟩ := h name path node hnode
      exact ⟨hname, hpath, hcalled location tally htally called count hcount⟩

/-- The names at the places of a store are those of its functions and those below them. -/
theorem namesObey_iff_trees :
    s.NamesObey function callee target ↔
      ∀ f ∈ s.toList, function f.name ∧ f.NamesObey callee target := by
  simp only [namesObey_iff_nodes, FunctionProfile.namesObey_iff_nodeAt?, nodeAt?,
    Option.bind_eq_some_iff]
  constructor
  · intro h f hf
    have hget := mem_toList_iff.1 hf
    refine ⟨(h f.name [] f ⟨f, hget, rfl⟩).1, fun path node hnode => ?_⟩
    exact (h f.name path node ⟨f, hget, hnode⟩).2
  · rintro h name path node ⟨f, hget, hnode⟩
    obtain rfl := name_of_get? hget
    obtain ⟨hname, hbelow⟩ := h f (mem_toList_iff.2 hget)
    exact ⟨hname, hbelow path node hnode⟩

instance [DecidablePred function] [DecidablePred callee] [DecidablePred target] (s : Store) :
    Decidable (s.NamesObey function callee target) :=
  decidable_of_iff (∀ f ∈ s.toList, function f.name ∧ f.NamesObey callee target)
    namesObey_iff_trees.symm

end Store

end SamplingProfile
