-- Maps, callees and stores that are built from a list. When the entries of the list are under
-- different keys, each of them is found under its own key, and nothing else is; so the list is the
-- list of entries of what was built, but for the order.
import Mathlib.Data.List.Induction
import Mathlib.Data.List.Nodup
import SamplingProfile.Store.Basic

namespace SamplingProfile

/-! ## Keys in order -/

/-- Keys in strictly increasing order. -/
def Increasing {κ : Type} [Ord κ] (keys : List κ) : Prop :=
  keys.Pairwise fun a b => compare a b = .lt

instance {κ : Type} [Ord κ] (keys : List κ) : Decidable (Increasing keys) :=
  inferInstanceAs (Decidable (keys.Pairwise fun a b => compare a b = .lt))

theorem increasing_cons_iff {κ : Type} [Ord κ] {key : κ} {keys : List κ} :
    Increasing (key :: keys) ↔ (∀ q ∈ keys, compare key q = .lt) ∧ Increasing keys :=
  List.pairwise_cons

theorem Increasing.nodup {κ : Type} [Ord κ] [Std.ReflOrd κ] {keys : List κ}
    (h : Increasing keys) : keys.Nodup := by
  refine h.imp fun {a b} hlt heq => ?_
  rw [heq, Std.compare_self] at hlt
  cases hlt

/-- There is one order in which the keys of some entries increase. -/
theorem eq_of_perm_of_increasing {ι κ : Type} [Ord κ] [Std.OrientedOrd κ] {key : ι → κ}
    {xs ys : List ι} (h : xs.Perm ys) (hx : Increasing (xs.map key))
    (hy : Increasing (ys.map key)) : xs = ys := by
  unfold Increasing at hx hy
  rw [List.pairwise_map] at hx hy
  refine h.eq_of_pairwise (fun a b _ _ hab hba => ?_) hx hy
  rw [← Std.OrientedCmp.gt_iff_lt, hab] at hba
  cases hba

/-! ## The last under a key -/

section Last

variable {κ β : Type} [DecidableEq κ] {es : List (κ × β)} {q : κ}

/-- What stands last under a key. -/
def lastUnder? (es : List (κ × β)) (key : κ) : Option β :=
  ((es.filter fun e => e.1 = key).getLast?).map Prod.snd

theorem lastUnder?_concat (es : List (κ × β)) (e : κ × β) (q : κ) :
    lastUnder? (es ++ [e]) q = if q = e.1 then some e.2 else lastUnder? es q := by
  unfold lastUnder?
  rw [List.filter_append, List.getLast?_append]
  by_cases hq : q = e.1
  · simp [hq]
  · simp [hq, Ne.symm hq]

/-- Something stands under every key of the list, and under no other. -/
theorem isSome_lastUnder?_iff : (lastUnder? es q).isSome ↔ q ∈ es.map Prod.fst := by
  induction es using List.reverseRecOn with
  | nil => simp [lastUnder?]
  | append_singleton es e ih =>
    rw [lastUnder?_concat, List.map_append, List.mem_append, ← ih]
    by_cases hq : q = e.1 <;> simp [hq]

end Last

/-! ## One entry after the other -/

section Fold

variable {μ ι κ β : Type} [DecidableEq κ] {get : μ → κ → Option β} {put : μ → ι → μ}
  {key : ι → κ} (join : Option β → ι → Option β)
  (hput : ∀ m x q, get (put m x) q = if q = key x then join (get m q) x else get m q)
include hput

theorem get_foldl_of_notMem (m : μ) {xs : List ι} {q : κ} (hq : q ∉ xs.map key) :
    get (xs.foldl put m) q = get m q := by
  induction xs generalizing m with
  | nil => rfl
  | cons x xs ih =>
    rw [List.map_cons, List.mem_cons, not_or] at hq
    rw [List.foldl_cons, ih _ hq.2, hput, if_neg hq.1]

/-- Under the key of an entry the entry was joined to what was there, once. -/
theorem get_foldl_of_mem (m : μ) {xs : List ι} (hxs : (xs.map key).Nodup) {x : ι} (hx : x ∈ xs) :
    get (xs.foldl put m) (key x) = join (get m (key x)) x := by
  induction xs generalizing m with
  | nil => cases hx
  | cons y xs ih =>
    rw [List.map_cons, List.nodup_cons] at hxs
    rw [List.foldl_cons]
    rcases List.mem_cons.1 hx with rfl | hx
    · rw [get_foldl_of_notMem join hput _ hxs.1, hput, if_pos rfl]
    · have hne : key x ≠ key y := by
        intro heq
        exact hxs.1 (heq ▸ List.mem_map_of_mem hx)
      rw [ih _ hxs.2 hx, hput, if_neg hne]

end Fold

section Insert

variable {μ κ β : Type} [DecidableEq κ] {get : μ → κ → Option β} {put : μ → κ × β → μ}
  (hput : ∀ m e q, get (put m e) q = if q = e.1 then some e.2 else get m q)
include hput

/-- Where new entries take the place of old ones, what is found is one of the entries or was there
before. -/
theorem mem_or_of_get_foldl_insert {m : μ} {es : List (κ × β)} {q : κ} {b : β}
    (h : get (es.foldl put m) q = some b) : (q, b) ∈ es ∨ get m q = some b := by
  induction es generalizing m with
  | nil => exact Or.inr h
  | cons e es ih =>
    rcases ih h with hin | hstart
    · exact Or.inl (List.mem_cons_of_mem e hin)
    · rw [hput] at hstart
      split at hstart
      · rename_i hq
        cases hstart
        subst hq
        exact Or.inl List.mem_cons_self
      · exact Or.inr hstart

theorem mem_of_get_foldl_insert {m : μ} (hm : ∀ q, get m q = none) {es : List (κ × β)} {q : κ}
    {b : β} (h : get (es.foldl put m) q = some b) : (q, b) ∈ es := by
  rcases mem_or_of_get_foldl_insert hput h with hin | hstart
  · exact hin
  · rw [hm] at hstart
    cases hstart

/-- Of the entries under one key the last one is found. -/
theorem get_foldl_insert_eq (m : μ) (es : List (κ × β)) (q : κ) :
    get (es.foldl put m) q = (lastUnder? es q).or (get m q) := by
  induction es using List.reverseRecOn with
  | nil => rfl
  | append_singleton es e ih =>
    rw [List.foldl_append, List.foldl_cons, List.foldl_nil, hput, ih, lastUnder?_concat]
    by_cases hq : q = e.1
    · rw [if_pos hq, if_pos hq, Option.some_or]
    · rw [if_neg hq, if_neg hq]

/-- Entries under different keys are all found. -/
theorem get_foldl_insert_iff {m : μ} (hm : ∀ q, get m q = none) {es : List (κ × β)}
    (hes : (es.map Prod.fst).Nodup) (q : κ) (b : β) :
    get (es.foldl put m) q = some b ↔ (q, b) ∈ es :=
  ⟨mem_of_get_foldl_insert hput hm, get_foldl_of_mem (fun _ e => some e.2) hput m hes⟩

end Insert

/-! ## Maps -/

namespace SortedMap

variable {κ β : Type} [Ord κ] [Std.TransOrd κ] [Std.LawfulEqOrd κ] [DecidableEq κ]

omit [Std.TransOrd κ] [Std.LawfulEqOrd κ] [DecidableEq κ] in
theorem increasing_keys (m : SortedMap κ β) : Increasing m.keys := List.pairwise_map.2 m.sorted

omit [DecidableEq κ] in
theorem mem_keys_iff {m : SortedMap κ β} {q : κ} : q ∈ m.keys ↔ ∃ b, m.get? q = some b := by
  simp [keys, mem_entries_iff]

omit [DecidableEq κ] in
theorem mem_values_iff {m : SortedMap κ β} {b : β} : b ∈ m.values ↔ ∃ q, m.get? q = some b := by
  simp [values, mem_entries_iff]

theorem mem_of_get?_ofList {es : List (κ × β)} {q : κ} {b : β}
    (h : (ofList es).get? q = some b) : (q, b) ∈ es :=
  mem_of_get_foldl_insert (fun m e q => get?_insert m e.1 q e.2) get?_empty h

/-- A map that is built from a list holds what stands last under each key. -/
theorem get?_ofList (es : List (κ × β)) (q : κ) : (ofList es).get? q = lastUnder? es q := by
  have h := get_foldl_insert_eq (fun m e q => get?_insert m e.1 q e.2) (∅ : SortedMap κ β) es q
  rwa [get?_empty, Option.or_none] at h

theorem perm_ofList {es : List (κ × β)} (hes : (es.map Prod.fst).Nodup) :
    (ofList es).entries.Perm es := by
  refine (List.perm_ext_iff_of_nodup ?_ hes.of_map).2 fun e => ?_
  · exact List.Nodup.of_map Prod.fst (nodup_keys (ofList es))
  · rw [mem_entries_iff]
    exact get_foldl_insert_iff (fun m e q => get?_insert m e.1 q e.2) get?_empty hes _ _

omit [DecidableEq κ] in
theorem eq_of_perm {m n : SortedMap κ β} (h : m.entries.Perm n.entries) : m = n := by
  apply ext
  intro q
  apply Option.ext
  intro b
  rw [← mem_entries_iff, ← mem_entries_iff, h.mem_iff]

/-- A map has the entries of a list exactly if it was built from it. -/
theorem perm_iff {es : List (κ × β)} (hes : (es.map Prod.fst).Nodup) {m : SortedMap κ β} :
    m.entries.Perm es ↔ m = ofList es := by
  constructor
  · intro h
    exact eq_of_perm (h.trans (perm_ofList hes).symm)
  · rintro rfl
    exact perm_ofList hes

end SortedMap

/-! ## Callees -/

namespace Forest

theorem mem_toList_iff {f : Forest} (h : f.Ordered) (site : Callsite) (c : FunctionProfile) :
    (site, c) ∈ f.toList h ↔ f.calleeAt? site h = some c := by
  induction f with
  | nil => simp [toList, calleeAt?]
  | cons s body inner rest _ ih =>
    have hrest := ih h.2.2
    simp only [toList, List.mem_cons, hrest, calleeAt?]
    cases hc : compare site s with
    | lt =>
      have hne : site ≠ s := fun heq => by simp [heq] at hc
      have hnone : rest.calleeAt? site h.2.2 = none :=
        calleeAt?_eq_none_of_lt h.2.2 fun t ht => Std.TransCmp.lt_trans hc (h.1 t ht)
      simp [hne, hnone]
    | eq =>
      have heq := Std.compare_eq_iff_eq.1 hc
      subst heq
      have hnone : rest.calleeAt? site h.2.2 = none := calleeAt?_eq_none_of_lt h.2.2 h.1
      simp [hnone, eq_comm]
    | gt =>
      have hne : site ≠ s := fun heq => by simp [heq] at hc
      simp [hne]

theorem map_fst_toList {f : Forest} (h : f.Ordered) : (f.toList h).map Prod.fst = f.sites := by
  induction f with
  | nil => rfl
  | cons s body inner rest _ ih => rw [toList, List.map_cons, ih h.2.2, sites]

theorem Ordered.increasing_sites {f : Forest} (h : f.Ordered) : Increasing f.sites := by
  induction f with
  | nil => exact List.Pairwise.nil
  | cons s body inner rest _ ih => exact increasing_cons_iff.2 ⟨h.1, ih h.2.2⟩

end Forest

namespace Callees

theorem mem_toList_iff (c : Callees) (site : Callsite) (f : FunctionProfile) :
    (site, f) ∈ c.toList ↔ c.get? site = some f :=
  Forest.mem_toList_iff c.ordered site f

theorem increasing_toList (c : Callees) : Increasing (c.toList.map Prod.fst) := by
  unfold toList
  rw [Forest.map_fst_toList]
  exact c.ordered.increasing_sites

theorem perm_ofList {es : List (Callsite × FunctionProfile)} (hes : (es.map Prod.fst).Nodup) :
    (ofList es).toList.Perm es := by
  refine (List.perm_ext_iff_of_nodup ?_ hes.of_map).2 fun e => ?_
  · exact List.Nodup.of_map Prod.fst (increasing_toList (ofList es)).nodup
  · rw [mem_toList_iff]
    exact get_foldl_insert_iff (fun c e q => get?_insert c e.1 q e.2) get?_empty hes _ _

theorem eq_of_perm {c d : Callees} (h : c.toList.Perm d.toList) : c = d := by
  apply eq_of_get?_eq
  intro site
  apply Option.ext
  intro f
  rw [← mem_toList_iff, ← mem_toList_iff, h.mem_iff]

/-- Callees are the callees of their own list. -/
theorem ofList_toList (c : Callees) : ofList c.toList = c :=
  eq_of_perm (perm_ofList c.increasing_toList.nodup)

/-- A node has the callees of a list exactly if they were built from it. -/
theorem perm_iff {es : List (Callsite × FunctionProfile)} (hes : (es.map Prod.fst).Nodup)
    {c : Callees} : c.toList.Perm es ↔ c = ofList es := by
  constructor
  · intro h
    exact eq_of_perm (h.trans (perm_ofList hes).symm)
  · rintro rfl
    exact perm_ofList hes

end Callees

/-! ## Stores -/

namespace Store

theorem mem_toList_iff {s : Store} {f : FunctionProfile} :
    f ∈ s.toList ↔ s.get? f.name = some f := by
  unfold toList SortedMap.values get?
  rw [List.mem_map, ← SortedMap.mem_entries_iff]
  constructor
  · rintro ⟨e, he, rfl⟩
    rw [s.named e he]
    exact he
  · intro h
    exact ⟨_, h, rfl⟩

theorem increasing_toList (s : Store) : Increasing (s.toList.map (·.name)) := by
  rw [map_name_toList]
  exact s.functions.increasing_keys

theorem nodup_toList (s : Store) : (s.toList.map (·.name)).Nodup := s.increasing_toList.nodup

theorem toList_eq_cons {s : Store} (hne : s.isEmpty = false) :
    ∃ f fs, s.toList = f :: fs := by
  cases hlist : s.toList with
  | nil =>
    rw [toList, SortedMap.values, List.map_eq_nil_iff] at hlist
    rw [isEmpty, hlist] at hne
    cases hne
  | cons f fs => exact ⟨f, fs, rfl⟩

theorem eq_of_perm {s t : Store} (h : s.toList.Perm t.toList) : s = t := by
  apply ext
  intro name
  apply Option.ext
  intro f
  have hmem : ∀ u : Store, u.get? name = some f ↔ f.name = name ∧ f ∈ u.toList := by
    intro u
    rw [mem_toList_iff]
    constructor
    · intro hf
      have hname := name_of_get? hf
      exact ⟨hname, by rwa [hname]⟩
    · rintro ⟨rfl, hf⟩
      exact hf
  rw [hmem, hmem, h.mem_iff]

theorem perm_ofList {fs : List FunctionProfile} (hfs : (fs.map (·.name)).Nodup) :
    (ofList fs).toList.Perm fs := by
  refine (List.perm_ext_iff_of_nodup ?_ hfs.of_map).2 fun f => ?_
  · exact List.Nodup.of_map _ (nodup_toList (ofList fs))
  · have hput : ∀ (s : Store) (f : FunctionProfile) (q : String),
        (s.insert f).get? q = if q = f.name then some f else s.get? q := get?_insert
    rw [mem_toList_iff]
    constructor
    · intro h
      by_cases hname : f.name ∈ fs.map (·.name)
      · obtain ⟨g, hg, hsame⟩ := List.mem_map.1 hname
        have hget := get_foldl_of_mem (fun _ g => some g) hput ∅ hfs hg
        unfold ofList at h
        rw [← hsame, hget, Option.some.injEq] at h
        rwa [← h]
      · unfold ofList at h
        rw [get_foldl_of_notMem (fun _ g => some g) hput ∅ hname, get?_empty] at h
        cases h
    · intro h
      exact get_foldl_of_mem (fun _ g => some g) hput ∅ hfs h

/-- A store is the store of its own functions. -/
theorem ofList_toList (s : Store) : ofList s.toList = s := eq_of_perm (perm_ofList s.nodup_toList)

/-- A store has the functions of a list exactly if it was built from it. -/
theorem perm_iff {fs : List FunctionProfile} (hfs : (fs.map (·.name)).Nodup) {s : Store} :
    s.toList.Perm fs ↔ s = ofList fs := by
  constructor
  · intro h
    exact eq_of_perm (h.trans (perm_ofList hfs).symm)
  · rintro rfl
    exact perm_ofList hfs

end Store

end SamplingProfile
