-- The walks with a stack of their own give what recursion on the tree gives. The counts come out
-- one at a time, each location of each node once; behind the last of them the walk stays at its
-- end. And the depth that is found is the height of the tree.
import SamplingProfile.FunctionProfile.Traversal
import SamplingProfile.Proofs.Store.Entries

namespace SamplingProfile

/-! ## The locations of a tree -/

/-- A location in a tree, given with the callsites that lead down to its node. -/
abbrev TreePlace := List Callsite × Location

/-- A count below a callsite, with its location as the caller sees it. -/
def Callsite.below (site : Callsite) (e : TreePlace × Count) : TreePlace × Count :=
  ((site :: e.1.1, e.1.2), e.2)

/-- The locations of one node with their counts, in order. -/
def Body.located (b : Body) : List (TreePlace × Count) :=
  b.samples.entries.map fun e => (([], e.1), e.2.count)

/-- The locations of all nodes with their counts: of each node first its own, then those of its
callees. -/
def Forest.located : Forest → List (TreePlace × Count)
  | nil => []
  | cons site body inner rest =>
    (body.located ++ inner.located).map site.below ++ rest.located

namespace FunctionProfile

/-- The locations of a function and its callees with their counts. -/
def located (f : FunctionProfile) : List (TreePlace × Count) :=
  f.toBody.located ++ f.callees.forest.located

/-- The count of a location in the node at the end of a path. -/
def countAt? (f : FunctionProfile) (place : TreePlace) : Option Count :=
  (f.nodeAt? place.1).bind fun node => (node.samples.get? place.2).map Tally.count

theorem countAt?_cons (f : FunctionProfile) (site : Callsite) (path : List Callsite)
    (location : Location) :
    f.countAt? (site :: path, location)
      = (f.callee? site).bind fun c => c.countAt? (path, location) := by
  simp only [countAt?, nodeAt?, Option.bind_assoc]

end FunctionProfile

namespace Body

variable (b : Body)

theorem map_snd_located : b.located.map Prod.snd = b.counts := by
  simp [located, counts, SortedMap.values, Function.comp_def]

theorem mem_located_iff {place : TreePlace} {count : Count} :
    (place, count) ∈ b.located
      ↔ place.1 = [] ∧ (b.samples.get? place.2).map Tally.count = some count := by
  obtain ⟨path, location⟩ := place
  simp only [located, List.mem_map, Prod.mk.injEq, Option.map_eq_some_iff]
  constructor
  · rintro ⟨⟨l, tally⟩, he, ⟨hpath, rfl⟩, hcount⟩
    exact ⟨hpath.symm, tally, (b.samples.mem_entries_iff _ _).1 he, hcount⟩
  · rintro ⟨hpath, tally, htally, hcount⟩
    exact ⟨(location, tally), (b.samples.mem_entries_iff _ _).2 htally, ⟨hpath.symm, rfl⟩, hcount⟩

theorem nodup_located : (b.located.map Prod.fst).Nodup := by
  have hkeys : b.located.map Prod.fst = b.samples.keys.map fun l => ([], l) := by
    simp [located, SortedMap.keys]
  rw [hkeys]
  exact b.samples.nodup_keys.map fun _ _ h => (Prod.mk.inj h).2

end Body

namespace Forest

theorem map_snd_located (f : Forest) : f.located.map Prod.snd = f.counts := by
  induction f with
  | nil => rfl
  | cons site body inner rest ih ih' =>
    have hbelow : Prod.snd ∘ site.below = Prod.snd := rfl
    rw [located, counts, List.map_append, List.map_map, hbelow, List.map_append,
      body.map_snd_located, ih, ih', List.append_assoc]

/-- A location of a tree of callees is one of the callee at its first callsite. -/
theorem mem_located_iff {f : Forest} (h : f.Ordered) {path : List Callsite} {location : Location}
    {count : Count} :
    ((path, location), count) ∈ f.located
      ↔ ∃ site c, f.calleeAt? site h = some c ∧
          ∃ inner, path = site :: inner ∧ ((inner, location), count) ∈ c.located := by
  have hlist : f.located
      = (f.toList h).flatMap fun entry => entry.2.located.map entry.1.below := by
    induction f with
    | nil => rfl
    | cons site body inner rest _ ih =>
      rw [located, toList, List.flatMap_cons, ih h.2.2]
      rfl
  rw [hlist, List.mem_flatMap]
  constructor
  · rintro ⟨⟨site, c⟩, hc, hmem⟩
    obtain ⟨⟨⟨inner, _⟩, _⟩, he, heq⟩ := List.mem_map.1 hmem
    cases heq
    exact ⟨site, c, (mem_toList_iff h site c).1 hc, inner, rfl, he⟩
  · rintro ⟨site, c, hc, inner, rfl, he⟩
    exact ⟨(site, c), (mem_toList_iff h site c).2 hc, List.mem_map.2 ⟨_, he, rfl⟩⟩

theorem path_of_mem_located {f : Forest} {e : TreePlace × Count} (he : e ∈ f.located) :
    ∃ site ∈ f.sites, ∃ path, e.1.1 = site :: path := by
  induction f with
  | nil => cases he
  | cons site body inner rest _ ih =>
    rcases List.mem_append.1 he with he | he
    · obtain ⟨e, -, rfl⟩ := List.mem_map.1 he
      exact ⟨site, List.mem_cons_self, e.1.1, rfl⟩
    · obtain ⟨s, hs, hpath⟩ := ih he
      exact ⟨s, List.mem_cons_of_mem site hs, hpath⟩

/-- A location of a node has no callsite in front, and a location below it has one. -/
theorem nodup_node (body : Body) {inner : Forest} (h : (inner.located.map Prod.fst).Nodup) :
    ((body.located ++ inner.located).map Prod.fst).Nodup := by
  rw [List.map_append]
  refine body.nodup_located.append h fun place hown hbelow => ?_
  obtain ⟨e, he, rfl⟩ := List.mem_map.1 hown
  obtain ⟨e', he', heq⟩ := List.mem_map.1 hbelow
  obtain ⟨site, -, path, hpath⟩ := path_of_mem_located he'
  rw [heq, (body.mem_located_iff.1 he).1] at hpath
  cases hpath

theorem nodup_located {f : Forest} (h : f.Ordered) : (f.located.map Prod.fst).Nodup := by
  induction f with
  | nil => exact List.nodup_nil
  | cons site body inner rest ih ih' =>
    obtain ⟨hlow, hin, hrest⟩ := h
    have hnode := nodup_node body (ih hin)
    have hbelow : Prod.fst ∘ site.below
        = (fun place : TreePlace => (site :: place.1, place.2)) ∘ Prod.fst := rfl
    rw [located, List.map_append, List.map_map, hbelow, ← List.map_map]
    refine (hnode.map fun p q hpq => ?_).append (ih' hrest) fun place hfirst hlater => ?_
    · obtain ⟨hpath, hlocation⟩ := Prod.mk.inj hpq
      exact Prod.ext (List.cons.inj hpath).2 hlocation
    · -- the callsites behind this one are other ones
      obtain ⟨place', -, rfl⟩ := List.mem_map.1 hfirst
      obtain ⟨e, hlater, heq⟩ := List.mem_map.1 hlater
      obtain ⟨s, hs, path, hpath⟩ := path_of_mem_located hlater
      have hlt := hlow s hs
      rw [heq] at hpath
      rw [(List.cons.inj hpath).1, Std.compare_self] at hlt
      cases hlt

end Forest

namespace FunctionProfile

variable (f : FunctionProfile)

theorem map_snd_located : f.located.map Prod.snd = f.counts := by
  rw [located, counts, List.map_append, f.toBody.map_snd_located, Forest.map_snd_located]

theorem nodup_located : (f.located.map Prod.fst).Nodup :=
  Forest.nodup_node f.toBody (Forest.nodup_located f.callees.ordered)

/-- The locations of a tree are those that a path leads to, with the counts found there. -/
theorem mem_located_iff {place : TreePlace} {count : Count} :
    (place, count) ∈ f.located ↔ f.countAt? place = some count := by
  obtain ⟨path, location⟩ := place
  induction path generalizing f with
  | nil =>
    rw [located, List.mem_append, Body.mem_located_iff, Forest.mem_located_iff f.callees.ordered]
    simp [countAt?, nodeAt?]
  | cons site path ih =>
    rw [located, List.mem_append, Body.mem_located_iff, Forest.mem_located_iff f.callees.ordered,
      countAt?_cons, Option.bind_eq_some_iff]
    simp [ih, callee?, Callees.get?]

end FunctionProfile

/-! ## Walking on -/

namespace CountCursor

/-- The cursor after a number of steps. -/
def after (c : CountCursor) : Nat → CountCursor
  | 0 => c
  | n + 1 => (c.after n).next.2

theorem remaining_after (c : CountCursor) (n : Nat) :
    (c.after n).remaining = c.remaining.drop n := by
  induction n with
  | zero => rfl
  | succ n ih => rw [after, remaining_next, ih, List.tail_drop]

/-- What a step finds after `n` others is the count at the index `n`, and nothing where there is
none. -/
theorem next_after (c : CountCursor) (n : Nat) : (c.after n).next.1 = c.remaining[n]? := by
  rw [next_fst, remaining_after, List.head?_drop]

end CountCursor

/-! ## The height of a tree -/

theorem Callees.height_eq (c : Callees) :
    c.forest.height = ((c.values.map FunctionProfile.height).max?).elim 0 (1 + ·) := by
  obtain ⟨forest, ordered⟩ := c
  induction forest with
  | nil => rfl
  | cons site body inner rest _ ih =>
    rw [Forest.height, ih ordered.2.2, values_cons, List.map_cons, List.max?_cons]
    cases ((values ⟨rest, ordered.2.2⟩).map FunctionProfile.height).max? with
    | none => exact Nat.max_zero _
    | some highest =>
      simp only [Option.elim, FunctionProfile.height]
      omega

namespace FunctionProfile

/-- The walks over a function are the recursions on its tree. The steps of the cursor find its
counts in their order, and none however often they go on behind the last. These are the counts of
the node in the order of its locations, then those of each callee in the order of their callsites;
each location of each node gives one count, and there are no others. The inline depth is the height
of the tree, 0 without callees and otherwise one more than that of the highest callee. -/
theorem walks_are_recursions (f : FunctionProfile) :
    (∀ n, ((CountCursor.ofFunction f).after n).next.1 = f.counts[n]?) ∧
    f.sampleCounts = f.counts ∧
    f.counts = f.samples.values.map Tally.count ++ f.callees.values.flatMap counts ∧
    Increasing f.samples.keys ∧ Increasing (f.callees.toList.map Prod.fst) ∧
    (f.counts = f.located.map Prod.snd ∧ (f.located.map Prod.fst).Nodup ∧
      ∀ place count, (place, count) ∈ f.located ↔ f.countAt? place = some count) ∧
    f.inlineDepth = f.height ∧
    f.height = ((f.callees.values.map height).max?).elim 0 (1 + ·) := by
  refine ⟨fun n => ?_, f.sampleCounts_eq_counts, ?_, f.samples.increasing_keys,
    f.callees.increasing_toList,
    ⟨f.map_snd_located.symm, f.nodup_located, fun _ _ => f.mem_located_iff⟩,
    f.inlineDepth_eq_height, f.callees.height_eq⟩
  · rw [CountCursor.next_after, CountCursor.remaining_ofFunction]
  · rw [counts, Callees.counts_eq_flatMap]
    rfl

end FunctionProfile

end SamplingProfile
