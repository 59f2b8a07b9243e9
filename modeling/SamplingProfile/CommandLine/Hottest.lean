-- The functions with the largest counts, found in one pass over a store: a heap holds those that
-- lead so far, never more than were asked for, and has the coldest of them at hand.
import SamplingProfile.Heap
import SamplingProfile.Store.Basic

namespace SamplingProfile.CommandLine

/-- A function with its largest count. -/
structure HotFunction where
  name : String
  count : Count
deriving DecidableEq, Repr

namespace HotFunction

/-- A function with the largest of its own counts. -/
def ofFunction (f : FunctionProfile) : HotFunction := ⟨f.name, f.maxCount⟩

/-- Names play no part in the rank, and of two functions the colder ranks higher: it is the one
that a heap gives up first. -/
instance : Ord HotFunction := ⟨fun f g => compare g.count f.count⟩

theorem isLE_compare_iff {f g : HotFunction} : (compare f g).isLE ↔ g.count ≤ f.count := by
  show (compare g.count f.count).isLE ↔ g.count ≤ f.count
  exact Std.isLE_compare

instance : Std.TransOrd HotFunction where
  eq_swap {f g} := Std.OrientedOrd.eq_swap (a := g.count) (b := f.count)
  isLE_trans hfg hgh := by
    rw [isLE_compare_iff] at hfg hgh ⊢
    exact UInt64.le_trans hgh hfg

/-- The line of a function in the list. -/
def line (f : HotFunction) : String := s!"  {f.name}, max count = {f.count}"

end HotFunction

variable (heap : Heap HotFunction) (n : Nat)

/-- One more function for a heap that holds `n` of them at most. A heap that is full gives up its
coldest function for one that is hotter, and for no other. -/
def offer (kept : heap.State) (f : FunctionProfile) : heap.State :=
  let hot := HotFunction.ofFunction f
  if n = 0 then kept
  else if heap.size kept = n then
    if (heap.peek? kept).any fun coldest => coldest.count < hot.count then
      heap.push (heap.pop kept) hot
    else kept
  else heap.push kept hot

/-- The `n` functions of a store with the largest counts, the hottest first. -/
def hottest (s : Store) : List HotFunction :=
  heap.ascending (s.toList.foldl (offer heap n) heap.empty)

end SamplingProfile.CommandLine
