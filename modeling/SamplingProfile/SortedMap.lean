-- Maps that are lists of entries in strictly increasing order of their keys. Two of them
-- are equal exactly when they hold the same values under the same keys (`SortedMap.ext`),
-- and reading one from front to back visits the keys in order.

namespace SamplingProfile

/-- Entries in strictly increasing order of their keys. -/
structure SortedMap (κ : Type u) (α : Type v) [Ord κ] where
  entries : List (κ × α)
  sorted : entries.Pairwise fun a b => compare a.1 b.1 = .lt

namespace SortedMap

variable {κ : Type u} {α : Type v} {β : Type w} [Ord κ]

/-! ## Lists of entries -/

/-- The value under `key`, for entries in order of their keys. -/
def valueAt? (key : κ) : List (κ × α) → Option α
  | [] => none
  | (k, a) :: rest =>
    match compare key k with
    | .lt => none
    | .eq => some a
    | .gt => valueAt? key rest

/-- Puts `value` under `key`, in place of what was there. -/
def putAt (key : κ) (value : α) : List (κ × α) → List (κ × α)
  | [] => [(key, value)]
  | (k, a) :: rest =>
    match compare key k with
    | .lt => (key, value) :: (k, a) :: rest
    | .eq => (key, value) :: rest
    | .gt => (k, a) :: putAt key value rest

theorem mem_putAt {key : κ} {value : α} {e : κ × α} {entries : List (κ × α)}
    (h : e ∈ putAt key value entries) : e = (key, value) ∨ e ∈ entries := by
  induction entries with
  | nil => simpa [putAt] using h
  | cons head rest ih =>
    obtain ⟨k, a⟩ := head
    simp only [putAt] at h
    split at h <;> simp only [List.mem_cons] at h ⊢
    · exact h
    · exact h.imp id Or.inr
    · rcases h with h | h
      · exact Or.inr (Or.inl h)
      · exact (ih h).imp id Or.inr

theorem pairwise_putAt [Std.TransOrd κ] [Std.LawfulEqOrd κ] (key : κ) (value : α)
    {entries : List (κ × α)} (h : entries.Pairwise fun a b => compare a.1 b.1 = .lt) :
    (putAt key value entries).Pairwise fun a b => compare a.1 b.1 = .lt := by
  induction entries with
  | nil => simp [putAt]
  | cons head rest ih =>
    obtain ⟨k, a⟩ := head
    have hr := List.pairwise_cons.1 h
    simp only [putAt]
    split
    · rename_i hlt
      refine List.pairwise_cons.2 ⟨fun e he => ?_, h⟩
      rcases List.mem_cons.1 he with rfl | he
      · exact hlt
      · exact Std.TransCmp.lt_trans hlt (hr.1 e he)
    · rename_i heq
      rw [Std.compare_eq_iff_eq] at heq
      subst heq
      exact List.pairwise_cons.2 ⟨hr.1, hr.2⟩
    · rename_i hgt
      refine List.pairwise_cons.2 ⟨fun e he => ?_, ih hr.2⟩
      rcases mem_putAt he with rfl | he
      · exact Std.OrientedCmp.gt_iff_lt.1 hgt
      · exact hr.1 e he

/-! ## Building and asking -/

/-- The map without entries. -/
def empty : SortedMap κ α := ⟨[], List.Pairwise.nil⟩

instance : EmptyCollection (SortedMap κ α) := ⟨empty⟩
instance : Inhabited (SortedMap κ α) := ⟨empty⟩

/-- The value under a key. -/
def get? (m : SortedMap κ α) (key : κ) : Option α := valueAt? key m.entries

/-- Whether there is a value under a key. -/
def contains (m : SortedMap κ α) (key : κ) : Bool := (m.get? key).isSome

/-- The keys, in increasing order. -/
def keys (m : SortedMap κ α) : List κ := m.entries.map Prod.fst

/-- The values, in the order of their keys. -/
def values (m : SortedMap κ α) : List α := m.entries.map Prod.snd

/-- The number of entries. -/
def size (m : SortedMap κ α) : Nat := m.entries.length

/-- Every value changed alike, the keys kept. -/
def mapValues (f : α → β) (m : SortedMap κ α) : SortedMap κ β where
  entries := m.entries.map fun e => (e.1, f e.2)
  sorted := List.pairwise_map.2 m.sorted

/-- The entries whose keys pass a test. -/
def filterKeys (keep : κ → Bool) (m : SortedMap κ α) : SortedMap κ α where
  entries := m.entries.filter fun e => keep e.1
  sorted := m.sorted.filter _

variable [Std.TransOrd κ] [Std.LawfulEqOrd κ]

/-- Puts a value under a key, in place of what was there. -/
def insert (m : SortedMap κ α) (key : κ) (value : α) : SortedMap κ α where
  entries := putAt key value m.entries
  sorted := pairwise_putAt key value m.sorted

/-- Changes the value under a key, or puts the first one there. -/
def update (m : SortedMap κ α) (key : κ) (f : Option α → α) : SortedMap κ α :=
  m.insert key (f (m.get? key))

/-- The map of a list of entries; of two with one key the later stays. -/
def ofList (entries : List (κ × α)) : SortedMap κ α :=
  entries.foldl (fun m e => m.insert e.1 e.2) empty

/-- Joins the entries of a second map to the first, one after the other. -/
def mergeWith (join : Option α → β → α) (m : SortedMap κ α) (other : SortedMap κ β) :
    SortedMap κ α :=
  other.entries.foldl (fun m e => m.update e.1 fun own => join own e.2) m

/-! ## Looking up after a change -/

omit [Std.TransOrd κ] [Std.LawfulEqOrd κ] in
theorem valueAt?_eq_none_of_lt {key : κ} {entries : List (κ × α)}
    (h : ∀ e ∈ entries, compare key e.1 = .lt) : valueAt? key entries = none := by
  cases entries with
  | nil => rfl
  | cons e rest => simp [valueAt?, h e List.mem_cons_self]

theorem valueAt?_putAt [DecidableEq κ] (key : κ) (value : α) (q : κ) {entries : List (κ × α)}
    (h : entries.Pairwise fun a b => compare a.1 b.1 = .lt) :
    valueAt? q (putAt key value entries)
      = if q = key then some value else valueAt? q entries := by
  induction entries with
  | nil =>
    simp only [putAt, valueAt?, ← Std.compare_eq_iff_eq (a := q)]
    cases compare q key <;> simp
  | cons head rest ih =>
    obtain ⟨k, a⟩ := head
    have hr := List.pairwise_cons.1 h
    simp only [putAt]
    split
    · rename_i hlt
      by_cases hq : q = key
      · simp [valueAt?, hq]
      · simp only [valueAt?, if_neg hq]
        cases hc : compare q key with
        | lt => simp [Std.TransCmp.lt_trans hc hlt]
        | eq => exact absurd (Std.compare_eq_iff_eq.1 hc) hq
        | gt => rfl
    · rename_i heq
      rw [Std.compare_eq_iff_eq] at heq
      subst heq
      by_cases hq : q = key
      · simp [valueAt?, hq]
      · simp only [valueAt?, if_neg hq]
        cases hc : compare q key with
        | lt => rfl
        | eq => exact absurd (Std.compare_eq_iff_eq.1 hc) hq
        | gt => rfl
    · rename_i hgt
      simp only [valueAt?, ih hr.2]
      by_cases hq : q = key
      · simp [hq, hgt]
      · simp only [if_neg hq]

omit [Std.TransOrd κ] [Std.LawfulEqOrd κ] in
@[simp] theorem get?_empty (q : κ) : (∅ : SortedMap κ α).get? q = none := rfl

theorem get?_insert [DecidableEq κ] (m : SortedMap κ α) (key q : κ) (value : α) :
    (m.insert key value).get? q = if q = key then some value else m.get? q :=
  valueAt?_putAt key value q m.sorted

theorem get?_update [DecidableEq κ] (m : SortedMap κ α) (key q : κ) (f : Option α → α) :
    (m.update key f).get? q = if q = key then some (f (m.get? key)) else m.get? q :=
  get?_insert m key q _

omit [Std.TransOrd κ] [Std.LawfulEqOrd κ] in
theorem get?_mapValues (m : SortedMap κ α) (f : α → β) (q : κ) :
    (m.mapValues f).get? q = (m.get? q).map f := by
  obtain ⟨entries, sorted⟩ := m
  simp only [mapValues, get?]
  clear sorted
  induction entries with
  | nil => rfl
  | cons head rest ih =>
    simp only [List.map_cons, valueAt?]
    cases compare q head.1 <;> simp [ih]

/-! ## Equality -/

theorem mem_entries_iff (m : SortedMap κ α) (key : κ) (value : α) :
    (key, value) ∈ m.entries ↔ m.get? key = some value := by
  obtain ⟨entries, sorted⟩ := m
  simp only [get?]
  induction entries with
  | nil => simp [valueAt?]
  | cons head rest ih =>
    obtain ⟨k, a⟩ := head
    have hr := List.pairwise_cons.1 sorted
    simp only [valueAt?, List.mem_cons, ih hr.2]
    cases hk : compare key k <;> simp
    · constructor
      · rintro ⟨rfl, _⟩
        simp at hk
      · rw [valueAt?_eq_none_of_lt fun e he => Std.TransCmp.lt_trans hk (hr.1 e he)]
        simp
    · rw [Std.compare_eq_iff_eq] at hk
      subst hk
      rw [valueAt?_eq_none_of_lt hr.1]
      simp [eq_comm]
    · rintro rfl
      simp at hk

theorem get?_filterKeys (m : SortedMap κ α) (keep : κ → Bool) (q : κ) :
    (m.filterKeys keep).get? q = if keep q then m.get? q else none := by
  apply Option.ext
  intro value
  rw [← mem_entries_iff, filterKeys, List.mem_filter, mem_entries_iff]
  cases keep q <;> simp

theorem get?_foldl_update (join : Option α → β → α) (q : κ) {entries : List (κ × β)}
    (h : entries.Pairwise fun a b => compare a.1 b.1 = .lt) (m : SortedMap κ α) :
    (entries.foldl (fun m e => m.update e.1 fun own => join own e.2) m).get? q
      = match valueAt? q entries with
        | none => m.get? q
        | some value => some (join (m.get? q) value) := by
  have : DecidableEq κ := fun a b => Classical.propDecidable (a = b)
  induction entries generalizing m with
  | nil => rfl
  | cons e rest ih =>
    obtain ⟨hlow, hrest⟩ := List.pairwise_cons.1 h
    rw [List.foldl_cons, ih hrest, get?_update]
    cases hc : compare q e.1 with
    | lt =>
      have hq : q ≠ e.1 := fun he => by simp [he] at hc
      have hnone : valueAt? q rest = none :=
        valueAt?_eq_none_of_lt fun e' he' => Std.TransCmp.lt_trans hc (hlow e' he')
      simp [valueAt?, hc, hnone, hq]
    | eq =>
      have hq := Std.compare_eq_iff_eq.1 hc
      subst hq
      have hnone : valueAt? e.1 rest = none := valueAt?_eq_none_of_lt hlow
      simp [valueAt?, hnone]
    | gt =>
      have hq : q ≠ e.1 := fun he => by simp [he] at hc
      simp [valueAt?, hc, hq]

/-- A key that the second map has is joined; any other keeps its value. -/
theorem get?_mergeWith (join : Option α → β → α) (m : SortedMap κ α) (other : SortedMap κ β)
    (q : κ) :
    (m.mergeWith join other).get? q
      = match other.get? q with
        | none => m.get? q
        | some value => some (join (m.get? q) value) :=
  get?_foldl_update join q other.sorted m

omit [Std.TransOrd κ] [Std.LawfulEqOrd κ] in
theorem eq_of_entries {m n : SortedMap κ α} (h : m.entries = n.entries) : m = n := by
  cases m
  cases n
  simpa using h

omit [Std.TransOrd κ] [Std.LawfulEqOrd κ] in
theorem mapValues_eq_self (m : SortedMap κ α) {f : α → α} (h : ∀ a, f a = a) :
    m.mapValues f = m := by
  apply eq_of_entries
  simp [mapValues, h]

/-- Two maps with the same value under every key are equal. -/
theorem ext {m n : SortedMap κ α} (h : ∀ q, m.get? q = n.get? q) : m = n := by
  obtain ⟨es, hs⟩ := m
  obtain ⟨fs, ht⟩ := n
  apply eq_of_entries
  simp only [get?] at h ⊢
  induction es generalizing fs with
  | nil =>
    cases fs with
    | nil => rfl
    | cons f fs => simpa [valueAt?] using h f.1
  | cons e es ih =>
    cases fs with
    | nil => simpa [valueAt?] using h e.1
    | cons f fs =>
      have hs' := List.pairwise_cons.1 hs
      have ht' := List.pairwise_cons.1 ht
      have hef : compare e.1 f.1 = .eq := by
        cases hc : compare e.1 f.1
        · have h1 := h e.1
          simp [valueAt?, hc] at h1
        · rfl
        · have h1 := h f.1
          simp [valueAt?, Std.OrientedCmp.gt_iff_lt.1 hc] at h1
      rw [Std.compare_eq_iff_eq] at hef
      have hv : e.2 = f.2 := by
        have h1 := h e.1
        simpa [valueAt?, hef] using h1
      have hrest : es = fs := by
        refine ih hs'.2 fs ht'.2 fun q => ?_
        have h1 := h q
        simp only [valueAt?, hef] at h1
        cases hq : compare q f.1
        · rw [valueAt?_eq_none_of_lt fun x hx =>
              Std.TransCmp.lt_trans hq (hef ▸ hs'.1 x hx),
            valueAt?_eq_none_of_lt fun x hx => Std.TransCmp.lt_trans hq (ht'.1 x hx)]
        · rw [Std.compare_eq_iff_eq] at hq
          subst hq
          rw [valueAt?_eq_none_of_lt fun x hx => hef ▸ hs'.1 x hx, valueAt?_eq_none_of_lt ht'.1]
        · simpa [hq] using h1
      rw [hrest, Prod.ext hef hv]

/-- The entries that join the empty map are changed one by one. -/
theorem empty_mergeWith (join : Option α → β → α) (other : SortedMap κ β) :
    (∅ : SortedMap κ α).mergeWith join other = other.mapValues (join none) := by
  apply ext
  intro q
  rw [get?_mergeWith, get?_mapValues]
  cases other.get? q <;> rfl

/-- A map is the map of its own entries. -/
theorem ofList_entries (m : SortedMap κ α) : ofList m.entries = m := by
  have hlist : ofList m.entries = (∅ : SortedMap κ α).mergeWith (fun _ value => value) m := rfl
  rw [hlist, empty_mergeWith, mapValues_eq_self m fun _ => rfl]

omit [Std.TransOrd κ] in
theorem nodup_keys (m : SortedMap κ α) : m.keys.Nodup := by
  unfold keys
  rw [List.Nodup, List.pairwise_map]
  apply m.sorted.imp
  intro a b hlt heq
  rw [heq, Std.compare_self] at hlt
  cases hlt

omit [Std.TransOrd κ] [Std.LawfulEqOrd κ] in
instance [DecidableEq κ] [DecidableEq α] : DecidableEq (SortedMap κ α) := fun m n =>
  decidable_of_iff (m.entries = n.entries) ⟨eq_of_entries, fun h => h ▸ rfl⟩

end SortedMap

end SamplingProfile
