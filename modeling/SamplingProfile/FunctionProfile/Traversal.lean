-- Walks over the tree of a function that keep what is left to visit on a stack of their
-- own, so that no tree is too deep for them. The counts come node before callees, and
-- callees in the order of their callsites, as they do in the recursive definition.
import SamplingProfile.FunctionProfile.Basic

namespace SamplingProfile

/-! ## The order of the counts -/

/-- The sample counts of all nodes: of each node first its own, then those of its callees. -/
def Forest.counts : Forest → List Count
  | nil => []
  | cons _ body inner rest => body.counts ++ (inner.counts ++ rest.counts)

/-- All the samples of a node with the body `body` and the callees below it. -/
def Forest.totalWith (inner : Forest) (body : Body) : Count :=
  Count.total (body.counts ++ inner.counts)

/-- The sample counts of a function and its callees, by recursion on the tree. -/
def FunctionProfile.counts (f : FunctionProfile) : List Count :=
  f.toBody.counts ++ f.callees.forest.counts

theorem Callees.counts_eq_flatMap (c : Callees) :
    c.forest.counts = c.values.flatMap FunctionProfile.counts := by
  obtain ⟨forest, ordered⟩ := c
  induction forest with
  | nil => rfl
  | cons site body inner rest _ ih =>
    rw [Forest.counts, ih ordered.2.2, values_cons, List.flatMap_cons, ← List.append_assoc]
    rfl

/-! ## The number of nodes -/

/-- The number of nodes of some functions with their callees. -/
def nodeTotal : List FunctionProfile → Nat
  | [] => 0
  | f :: fs => f.nodeCount + nodeTotal fs

@[simp] theorem nodeTotal_append (fs gs : List FunctionProfile) :
    nodeTotal (fs ++ gs) = nodeTotal fs + nodeTotal gs := by
  induction fs with
  | nil => exact (Nat.zero_add _).symm
  | cons f fs ih => rw [List.cons_append, nodeTotal, nodeTotal, ih, Nat.add_assoc]

@[simp] theorem nodeTotal_reverse (fs : List FunctionProfile) :
    nodeTotal fs.reverse = nodeTotal fs := by
  induction fs with
  | nil => rfl
  | cons f fs ih =>
    rw [List.reverse_cons, nodeTotal_append, ih, Nat.add_comm]
    rfl

theorem Callees.nodeTotal_values (c : Callees) : nodeTotal c.values = c.forest.size := by
  obtain ⟨forest, ordered⟩ := c
  induction forest with
  | nil => rfl
  | cons site body inner rest _ ih =>
    rw [Forest.size, ← ih ordered.2.2, values_cons]
    rfl

/-- A node has more nodes than its callees have together. -/
theorem FunctionProfile.nodeTotal_lt (f : FunctionProfile) :
    nodeTotal f.callees.values < f.nodeCount := by
  rw [Callees.nodeTotal_values, nodeCount]
  omega

/-! ## Stacks -/

/-- A stack, its top in front, after things were put on it one after the other. -/
def pushAll {α : Type} (xs stack : List α) : List α := xs.foldl (fun stack x => x :: stack) stack

@[simp] theorem pushAll_eq {α : Type} (xs stack : List α) :
    pushAll xs stack = xs.reverse ++ stack := by
  induction xs generalizing stack with
  | nil => rfl
  | cons x xs ih =>
    have hrest := ih (x :: stack)
    rw [List.reverse_cons, List.append_assoc]
    exact hrest

/-! ## A cursor over the counts -/

/-- A place in the walk over a tree. -/
structure CountCursor where
  /-- The tallies left at the node that was reached. -/
  current : List Tally
  /-- The nodes left to visit, the next one on top. -/
  pending : List FunctionProfile
  /-- Whether a first step was made. Before it the tallies of the root are at hand already, and
  the root itself lies where its callees will lie. -/
  started : Bool

namespace CountCursor

/-- The walk over a function before its first step. -/
def ofFunction (f : FunctionProfile) : CountCursor := ⟨f.samples.values, [f], false⟩

/-- The stack with the callees of a node on it. They are put there from the last to the first, so
that the first of them is met first. -/
def openNode (node : FunctionProfile) (pending : List FunctionProfile) : List FunctionProfile :=
  pushAll node.callees.values.reverse pending

@[simp] theorem openNode_eq (node : FunctionProfile) (pending : List FunctionProfile) :
    openNode node pending = node.callees.values ++ pending := by
  simp [openNode]

/-- The walk as it goes on: before its first step the root gives way to its callees. -/
def start (c : CountCursor) : CountCursor :=
  if c.started then c
  else
    match c.pending with
    | [] => { c with started := true }
    | root :: pending => { c with pending := openNode root pending, started := true }

/-- The next count, and the cursor behind it. Where no tally is left at a node, the next node is
taken from the stack and opened; where no node is left either, the walk has ended. -/
def advance : (current : List Tally) → (pending : List FunctionProfile) →
    Option Count × CountCursor
  | tally :: current, pending => (some tally.count, ⟨current, pending, true⟩)
  | [], [] => (none, ⟨[], [], true⟩)
  | [], node :: pending => advance node.samples.values (openNode node pending)
termination_by _ pending => nodeTotal pending
decreasing_by
  have hfewer := node.nodeTotal_lt
  simp only [openNode_eq, nodeTotal_append, nodeTotal]
  omega

/-- One step of the walk. -/
def next (c : CountCursor) : Option Count × CountCursor :=
  advance c.start.current c.start.pending

/-- The counts that the walk has not reached yet. -/
def remaining (c : CountCursor) : List Count :=
  c.start.current.map Tally.count ++ c.start.pending.flatMap FunctionProfile.counts

theorem start_of_started {c : CountCursor} (h : c.started = true) : c.start = c := by
  rw [start, if_pos h]

theorem remaining_ofFunction (f : FunctionProfile) : (ofFunction f).remaining = f.counts := by
  rw [FunctionProfile.counts, Callees.counts_eq_flatMap]
  simp [remaining, start, ofFunction, Body.counts]

/-- The invariant of the walk: the counts that it finds are those of its tallies, then those of the
nodes on its stack. -/
theorem advance_spec (current : List Tally) (pending : List FunctionProfile) :
    let remaining := current.map Tally.count ++ pending.flatMap FunctionProfile.counts
    (advance current pending).1 = remaining.head? ∧
      (advance current pending).2.remaining = remaining.tail := by
  fun_induction advance current pending with
  | case1 tally current pending => exact ⟨rfl, by simp [remaining, start_of_started]⟩
  | case2 => exact ⟨rfl, rfl⟩
  | case3 node pending ih =>
    have hopen : (openNode node pending).flatMap FunctionProfile.counts
        = node.callees.forest.counts ++ pending.flatMap FunctionProfile.counts := by
      rw [openNode_eq, List.flatMap_append, Callees.counts_eq_flatMap]
    rw [hopen] at ih
    simpa [FunctionProfile.counts, Body.counts] using ih

/-- A step takes the first of the remaining counts, if there is one. -/
theorem next_fst (c : CountCursor) : c.next.1 = c.remaining.head? := (advance_spec _ _).1

/-- A step leaves the other counts, and at the end of the walk none. -/
theorem remaining_next (c : CountCursor) : c.next.2.remaining = c.remaining.tail :=
  (advance_spec _ _).2

/-- A step that finds a count has found the first of the remaining ones. -/
theorem remaining_of_next {c c' : CountCursor} {count : Count} (h : c.next = (some count, c')) :
    c.remaining = count :: c'.remaining := by
  have hfirst := next_fst c
  have hrest := remaining_next c
  rw [h] at hfirst hrest
  obtain ⟨rest, hc⟩ := List.head?_eq_some_iff.1 hfirst.symm
  rw [hrest, hc, List.tail_cons]

/-- The counts that the walk visits until a step finds none. -/
def toList (c : CountCursor) : List Count :=
  match _h : c.next with
  | (none, _) => []
  | (some count, c') => count :: c'.toList
termination_by c.remaining.length
decreasing_by simp [remaining_of_next _h]

/-- The walk visits exactly the remaining counts. -/
theorem toList_eq_remaining (c : CountCursor) : c.toList = c.remaining := by
  fun_induction toList c with
  | case1 c c' h =>
    have hfirst := next_fst c
    rw [h] at hfirst
    exact (List.head?_eq_none_iff.1 hfirst.symm).symm
  | case2 c count c' h ih => rw [remaining_of_next h, ih]

end CountCursor

namespace FunctionProfile

/-- The sample counts of a function and its callees, as the cursor visits them. -/
def sampleCounts (f : FunctionProfile) : List Count := (CountCursor.ofFunction f).toList

@[simp] theorem sampleCounts_eq_counts (f : FunctionProfile) : f.sampleCounts = f.counts := by
  rw [sampleCounts, CountCursor.toList_eq_remaining, CountCursor.remaining_ofFunction]

/-- All the samples of a function and its callees. -/
def totalCount (f : FunctionProfile) : Count := Count.total f.sampleCounts

theorem totalCount_eq_totalWith (f : FunctionProfile) :
    f.totalCount = f.callees.forest.totalWith f.toBody := by
  simp [totalCount, Forest.totalWith, counts]

/-- The largest count at one location of a function and its callees. -/
def maxCount (f : FunctionProfile) : Count := Count.largest f.sampleCounts

end FunctionProfile

/-! ## The depth of a tree -/

namespace FunctionProfile

/-- The depth of the deepest node below some nodes on a stack, each given with its own depth, where
`best` is the largest depth met before. -/
def deepest : (pending : List (FunctionProfile × Nat)) → (best : Nat) → Nat
  | [], best => best
  | (node, depth) :: pending, best =>
    deepest (pushAll (node.callees.values.map fun callee => (callee, depth + 1)) pending)
      (max best depth)
termination_by pending => nodeTotal (pending.map Prod.fst)
decreasing_by
  have hfewer := node.nodeTotal_lt
  simp only [pushAll_eq, List.map_append, List.map_reverse, List.map_map, Function.comp_def,
    List.map_id', nodeTotal_append, nodeTotal_reverse, List.map_cons, nodeTotal]
  omega

/-- The number of callees on the longest chain below a function. -/
def inlineDepth (f : FunctionProfile) : Nat := deepest [(f, 0)] 0

/-- The callees of a node reach as deep as the node itself says. -/
theorem foldl_max_values (c : Callees) (best depth : Nat) :
    (c.values.map fun callee => depth + 1 + callee.height).foldl max (max best depth)
      = max best (depth + c.forest.height) := by
  obtain ⟨forest, ordered⟩ := c
  induction forest generalizing best with
  | nil => rfl
  | cons site body inner rest _ ih =>
    have hfirst : max (max best depth) (depth + 1 + inner.height)
        = max (max best (depth + 1 + inner.height)) depth := by omega
    rw [Callees.values_cons, List.map_cons, List.foldl_cons, height, hfirst, ih]
    dsimp only [Forest.height]
    omega

theorem deepest_eq (pending : List (FunctionProfile × Nat)) (best : Nat) :
    deepest pending best = (pending.map fun p => p.2 + p.1.height).foldl max best := by
  fun_induction deepest pending best with
  | case1 => rfl
  | case2 node depth pending best ih =>
    have hreverse := (List.reverse_perm
      (node.callees.values.map fun callee => depth + 1 + callee.height)).foldl_eq'
      (f := max) (fun x _ y _ z => by omega) (max best depth)
    rw [ih, pushAll_eq, List.map_append, List.map_reverse, List.map_map, List.foldl_append]
    simp only [Function.comp_def, List.map_cons, List.foldl_cons]
    rw [hreverse, foldl_max_values]
    rfl

@[simp] theorem inlineDepth_eq_height (f : FunctionProfile) : f.inlineDepth = f.height := by
  simp [inlineDepth, deepest_eq]

end FunctionProfile

end SamplingProfile
