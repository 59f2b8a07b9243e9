-- The store of a profile: every top level function under its own name, in the order of
-- the names.
import SamplingProfile.FunctionProfile.Traversal

namespace SamplingProfile

/-- The functions of a profile, each under its own name. -/
structure Store where
  functions : SortedMap String FunctionProfile
  named : ∀ e ∈ functions.entries, e.2.name = e.1
deriving DecidableEq

namespace Store

/-- The store without functions. -/
def empty : Store := ⟨∅, fun _ h => nomatch h⟩

instance : EmptyCollection Store := ⟨empty⟩
instance : Inhabited Store := ⟨empty⟩

/-! ## Asking -/

/-- The function of a name. -/
def get? (s : Store) (name : String) : Option FunctionProfile := s.functions.get? name

/-- Whether there is a function of a name. -/
def contains (s : Store) (name : String) : Bool := s.functions.contains name

/-- The functions in the order of their names. -/
def toList (s : Store) : List FunctionProfile := s.functions.values

/-- The names in order. -/
def names (s : Store) : List String := s.functions.keys

/-- The number of functions. -/
def size (s : Store) : Nat := s.functions.size

/-- Whether there is no function. -/
def isEmpty (s : Store) : Bool := s.functions.entries.isEmpty

/-- The sample counts of all functions, at every depth. -/
def sampleCounts (s : Store) : List Count := s.toList.flatMap FunctionProfile.sampleCounts

/-- How often each function was entered. -/
def entryCounts (s : Store) : List Count := s.toList.map (·.entryCount)

/-- One line for each function, with its total and its entry count. -/
def describe (s : Store) : String :=
  String.join (s.toList.map fun f =>
    s!"{f.name}: total = {f.totalCount}, head = {f.entryCount}\n")

/-! ## Inserting -/

/-- Puts a function under its name, in place of the one that was there. -/
def insert (s : Store) (f : FunctionProfile) : Store where
  functions := s.functions.insert f.name f
  named := fun e he => by
    rcases SortedMap.mem_putAt he with rfl | he
    · rfl
    · exact s.named e he

/-- The store of a list of functions; of two with one name the later stays. -/
def ofList (fs : List FunctionProfile) : Store := fs.foldl insert ∅

@[simp] theorem get?_empty (name : String) : (∅ : Store).get? name = none := rfl

theorem get?_insert (s : Store) (f : FunctionProfile) (name : String) :
    (s.insert f).get? name = if name = f.name then some f else s.get? name :=
  SortedMap.get?_insert s.functions f.name name f

/-- What a name leads to has that name. -/
theorem name_of_get? {s : Store} {name : String} {f : FunctionProfile}
    (h : s.get? name = some f) : f.name = name :=
  s.named (name, f) ((SortedMap.mem_entries_iff s.functions name f).2 h)

theorem map_name_toList (s : Store) : s.toList.map (·.name) = s.names := by
  unfold toList names SortedMap.values SortedMap.keys
  rw [List.map_map]
  exact List.map_congr_left s.named

/-- Two stores with the same function under every name are equal. -/
theorem ext {s t : Store} (h : ∀ name, s.get? name = t.get? name) : s = t := by
  cases s
  cases t
  have := SortedMap.ext h
  simpa using this

end Store

end SamplingProfile
