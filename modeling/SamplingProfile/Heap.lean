-- Heaps: collections that have their greatest value at hand. Values that rank the same may still
-- differ, and which of them is at hand is for the heap to say. One way to keep a heap is given
-- here, a list in decreasing order.

namespace SamplingProfile

/-- A value of a list that no value of the list passes. -/
def Greatest {α : Type} [Ord α] (a : α) (values : List α) : Prop :=
  a ∈ values ∧ ∀ b ∈ values, (compare b a).isLE

/-- A way to keep heaps. -/
structure Heap (α : Type) [Ord α] where
  State : Type
  /-- The values, in no order that one can rely on. -/
  values : State → List α
  empty : State
  push : State → α → State
  /-- A greatest value, if there is a value. -/
  peek? : State → Option α
  /-- What is left without a greatest value. -/
  pop : State → State
  /-- The values from the least to the greatest. -/
  ascending : State → List α
  values_empty : values empty = []
  perm_push (s : State) (a : α) : (values (push s a)).Perm (a :: values s)
  isSome_peek? (s : State) (h : values s ≠ []) : (peek? s).isSome
  greatest_of_peek? {s : State} {a : α} (h : peek? s = some a) : Greatest a (values s)
  perm_pop (s : State) (h : values s ≠ []) :
    ∃ a, Greatest a (values s) ∧ (values s).Perm (a :: values (pop s))
  perm_ascending (s : State) : (ascending s).Perm (values s)
  pairwise_ascending (s : State) : (ascending s).Pairwise fun a b => (compare a b).isLE

namespace Heap

variable {α : Type} [Ord α]

/-- The number of values. -/
def size (heap : Heap α) (s : heap.State) : Nat := (heap.values s).length

/-! ## A list in decreasing order -/

/-- Puts a value into a list in decreasing order, in front of all that do not pass it. -/
def insertDescending (a : α) : List α → List α
  | [] => [a]
  | b :: rest => if (compare b a).isLE then a :: b :: rest else b :: insertDescending a rest

theorem perm_insertDescending (a : α) (list : List α) :
    (insertDescending a list).Perm (a :: list) := by
  induction list with
  | nil => exact List.Perm.refl _
  | cons b rest ih =>
    unfold insertDescending
    split
    · exact List.Perm.refl _
    · exact (ih.cons b).trans (List.Perm.swap a b rest)

/-- A list in decreasing order. -/
abbrev Descending (list : List α) : Prop := list.Pairwise fun a b => (compare b a).isLE

variable [Std.TransOrd α]

theorem descending_insertDescending (a : α) {list : List α} (h : Descending list) :
    Descending (insertDescending a list) := by
  induction list with
  | nil => simp [insertDescending]
  | cons b rest ih =>
    have hrest := List.pairwise_cons.1 h
    unfold insertDescending
    split
    · rename_i hle
      refine List.pairwise_cons.2 ⟨?_, h⟩
      intro c hc
      rcases List.mem_cons.1 hc with rfl | hc
      · exact hle
      · exact Std.TransCmp.isLE_trans (hrest.1 c hc) hle
    · rename_i hgt
      refine List.pairwise_cons.2 ⟨?_, ih hrest.2⟩
      intro c hc
      rcases List.mem_cons.1 ((perm_insertDescending a rest).mem_iff.1 hc) with rfl | hc
      · exact Ordering.isLE_of_eq_lt (Std.OrientedCmp.lt_of_not_isLE hgt)
      · exact hrest.1 c hc

theorem greatest_head {a : α} {rest : List α} (h : Descending (a :: rest)) :
    Greatest a (a :: rest) := by
  refine ⟨List.mem_cons_self, ?_⟩
  intro b hb
  rcases List.mem_cons.1 hb with rfl | hb
  · exact Std.ReflCmp.isLE_rfl
  · exact (List.pairwise_cons.1 h).1 b hb

/-- The heap that is a list in decreasing order. Of values that rank the same the one that came
last is at hand. -/
def listed : Heap α where
  State := { list : List α // Descending list }
  values s := s.1
  empty := ⟨[], List.Pairwise.nil⟩
  push s a := ⟨insertDescending a s.1, descending_insertDescending a s.2⟩
  peek? s := s.1.head?
  pop s := ⟨s.1.tail, s.2.tail⟩
  ascending s := s.1.reverse
  values_empty := rfl
  perm_push s a := perm_insertDescending a s.1
  isSome_peek? s h := by
    rw [List.isSome_head?]
    exact h
  greatest_of_peek? := by
    rintro ⟨list, hlist⟩ a h
    obtain ⟨rest, rfl⟩ := List.head?_eq_some_iff.1 h
    exact greatest_head hlist
  perm_pop := by
    rintro ⟨list, hlist⟩ h
    cases list with
    | nil => exact absurd rfl h
    | cons a rest => exact ⟨a, greatest_head hlist, List.Perm.refl _⟩
  perm_ascending s := List.reverse_perm s.1
  pairwise_ascending s := List.pairwise_reverse.2 s.2

end Heap

end SamplingProfile
