-- What a profile knows of one function: the samples at its own places, and below each
-- callsite the same again for the callee that was inlined there. The callees of a node
-- are kept in the order of their callsites, so two functions are equal exactly when they
-- hold the same at every place.
import SamplingProfile.Count
import SamplingProfile.SortedMap
import SamplingProfile.Location

namespace SamplingProfile

/-! ## One node -/

/-- What was sampled at one location. -/
structure Tally where
  /-- How often the location was sampled. -/
  count : Count := 0
  /-- How many instructions the samples came from. -/
  instructions : Count := 0
  /-- The functions called indirectly from here, and how often. -/
  targets : SortedMap String Count := ∅
deriving DecidableEq

/-- What a function, or an inlined copy of one, holds itself. -/
structure Body where
  name : String
  directory : String := ""
  file : String := ""
  startLine : UInt32 := 0
  /-- How often the function was entered. -/
  entryCount : Count := 0
  samples : SortedMap Location Tally := ∅
deriving DecidableEq

/-- The sample counts of the locations, in the order of the locations. -/
def Body.counts (b : Body) : List Count := b.samples.values.map Tally.count

/-! ## Trees of inlined callees -/

/-- The callees below one node, each with its own body and its own callees. -/
inductive Forest
  | nil
  | cons (site : Callsite) (body : Body) (inner : Forest) (rest : Forest)
deriving DecidableEq

namespace Forest

/-- The callsites of the first level. -/
def sites : Forest → List Callsite
  | nil => []
  | cons site _ _ rest => site :: rest.sites

/-- On every level the callsites are in strictly increasing order. -/
def Ordered : Forest → Prop
  | nil => True
  | cons site _ inner rest =>
    (∀ s ∈ rest.sites, compare site s = .lt) ∧ inner.Ordered ∧ rest.Ordered

instance decidableOrdered : (f : Forest) → Decidable f.Ordered
  | nil => inferInstanceAs (Decidable True)
  | cons site _ inner rest =>
    have := inner.decidableOrdered
    have := rest.decidableOrdered
    inferInstanceAs (Decidable ((∀ s ∈ rest.sites, compare site s = .lt) ∧ _ ∧ _))

/-- The number of nodes. -/
def size : Forest → Nat
  | nil => 0
  | cons _ _ inner rest => 1 + inner.size + rest.size

/-- The length of the longest chain of callees, each below the one before. -/
def height : Forest → Nat
  | nil => 0
  | cons _ _ inner rest => max (1 + inner.height) rest.height

end Forest

/-- The callees of a node in the order of their callsites. -/
@[ext] structure Callees where
  forest : Forest
  ordered : forest.Ordered
deriving DecidableEq

/-- No callees. -/
def Callees.empty : Callees := ⟨.nil, trivial⟩

instance : EmptyCollection Callees := ⟨Callees.empty⟩
instance : Inhabited Callees := ⟨Callees.empty⟩

/-- A function with the callees that were inlined into it. -/
@[ext] structure FunctionProfile extends Body where
  callees : Callees := ∅
deriving DecidableEq

/-! ## Looking below a callsite -/

namespace Forest

/-- The callee at a callsite. -/
def calleeAt? (site : Callsite) : (f : Forest) → f.Ordered → Option FunctionProfile
  | nil, _ => none
  | cons s body inner rest, h =>
    match compare site s with
    | .lt => none
    | .eq => some { body with callees := ⟨inner, h.2.1⟩ }
    | .gt => rest.calleeAt? site h.2.2

/-- Puts a callee at a callsite, in place of the one that was there. -/
def putAt : Forest → Callsite → Body → Forest → Forest
  | nil, site, body, callees => cons site body callees nil
  | cons s b inner rest, site, body, callees =>
    match compare site s with
    | .lt => cons site body callees (cons s b inner rest)
    | .eq => cons site body callees rest
    | .gt => cons s b inner (rest.putAt site body callees)

/-- The callees of the first level with their callsites. -/
def toList : (f : Forest) → f.Ordered → List (Callsite × FunctionProfile)
  | nil, _ => []
  | cons site body inner rest, h =>
    (site, { body with callees := ⟨inner, h.2.1⟩ }) :: rest.toList h.2.2

theorem mem_sites_putAt {site : Callsite} {body : Body} {callees f : Forest} {s : Callsite}
    (h : s ∈ (f.putAt site body callees).sites) : s = site ∨ s ∈ f.sites := by
  induction f with
  | nil => simpa [putAt, sites] using h
  | cons s' b inner rest _ ih =>
    simp only [putAt] at h
    split at h <;> simp only [sites, List.mem_cons] at h ⊢
    · exact h
    · exact h.imp id Or.inr
    · rcases h with h | h
      · exact Or.inr (Or.inl h)
      · exact (ih h).imp id Or.inr

theorem ordered_putAt {site : Callsite} {body : Body} {callees f : Forest}
    (hc : callees.Ordered) (h : f.Ordered) : (f.putAt site body callees).Ordered := by
  induction f with
  | nil => simp [putAt, Ordered, sites, hc]
  | cons s b inner rest _ ih =>
    obtain ⟨hlow, hin, hr⟩ := h
    simp only [putAt]
    split
    · rename_i hlt
      refine ⟨fun t ht => ?_, hc, hlow, hin, hr⟩
      rcases List.mem_cons.1 ht with rfl | ht
      · exact hlt
      · exact Std.TransCmp.lt_trans hlt (hlow t ht)
    · rename_i heq
      rw [Std.compare_eq_iff_eq] at heq
      subst heq
      exact ⟨hlow, hc, hr⟩
    · rename_i hgt
      refine ⟨fun t ht => ?_, hin, ih hr⟩
      rcases mem_sites_putAt ht with rfl | ht
      · exact Std.OrientedCmp.gt_iff_lt.1 hgt
      · exact hlow t ht

theorem calleeAt?_eq_none_of_lt {site : Callsite} {f : Forest} (h : f.Ordered)
    (hlt : ∀ s ∈ f.sites, compare site s = .lt) : f.calleeAt? site h = none := by
  cases f with
  | nil => rfl
  | cons s b inner rest => simp [calleeAt?, hlt s List.mem_cons_self]

theorem calleeAt?_putAt {site : Callsite} {body : Body} {callees f : Forest}
    (hc : callees.Ordered) (h : f.Ordered) (q : Callsite) :
    (f.putAt site body callees).calleeAt? q (ordered_putAt hc h)
      = if q = site then some { body with callees := ⟨callees, hc⟩ } else f.calleeAt? q h := by
  induction f with
  | nil =>
    simp only [putAt, calleeAt?, ← Std.compare_eq_iff_eq (a := q)]
    cases compare q site <;> simp
  | cons s b inner rest _ ih =>
    have hr := h.2.2
    cases hs : compare site s with
    | lt =>
      simp only [putAt, hs]
      by_cases hq : q = site
      · simp [calleeAt?, hq]
      · simp only [calleeAt?, if_neg hq]
        cases hcq : compare q site with
        | lt => simp [Std.TransCmp.lt_trans hcq hs]
        | eq => exact absurd (Std.compare_eq_iff_eq.1 hcq) hq
        | gt => rfl
    | eq =>
      have hss := Std.compare_eq_iff_eq.1 hs
      subst hss
      simp only [putAt, hs]
      by_cases hq : q = site
      · simp [calleeAt?, hq]
      · simp only [calleeAt?, if_neg hq]
        cases hcq : compare q site with
        | lt => rfl
        | eq => exact absurd (Std.compare_eq_iff_eq.1 hcq) hq
        | gt => rfl
    | gt =>
      simp only [putAt, hs, calleeAt?, ih hr]
      by_cases hq : q = site
      · simp [hq, hs]
      · simp only [if_neg hq]

/-- Ordered forests with the same callee at every callsite are equal. -/
theorem eq_of_calleeAt?_eq {f g : Forest} (hf : f.Ordered) (hg : g.Ordered)
    (h : ∀ q, f.calleeAt? q hf = g.calleeAt? q hg) : f = g := by
  induction f generalizing g with
  | nil =>
    cases g with
    | nil => rfl
    | cons s b inner rest => simpa [calleeAt?] using h s
  | cons s b inner rest _ ih =>
    cases g with
    | nil => simpa [calleeAt?] using h s
    | cons t c inner' rest' =>
      have hst : s = t := by
        cases hc : compare s t with
        | lt =>
          have h1 := h s
          simp [calleeAt?, hc] at h1
        | eq => exact Std.compare_eq_iff_eq.1 hc
        | gt =>
          have h1 := h t
          simp [calleeAt?, Std.OrientedCmp.gt_iff_lt.1 hc] at h1
      subst hst
      have hhead := h s
      simp only [calleeAt?, Std.compare_self, Option.some.injEq, FunctionProfile.mk.injEq,
        Callees.mk.injEq] at hhead
      obtain ⟨hb, hi⟩ := hhead
      have hrest : rest = rest' := by
        refine ih hf.2.2 hg.2.2 fun q => ?_
        have h1 := h q
        simp only [calleeAt?] at h1
        cases hq : compare q s with
        | lt =>
          rw [calleeAt?_eq_none_of_lt hf.2.2 fun x hx => Std.TransCmp.lt_trans hq (hf.1 x hx),
            calleeAt?_eq_none_of_lt hg.2.2 fun x hx => Std.TransCmp.lt_trans hq (hg.1 x hx)]
        | eq =>
          have := Std.compare_eq_iff_eq.1 hq
          subst this
          rw [calleeAt?_eq_none_of_lt hf.2.2 hf.1, calleeAt?_eq_none_of_lt hg.2.2 hg.1]
        | gt => simpa [hq] using h1
      rw [hb, hi, hrest]

end Forest

namespace Callees

/-- The callee at a callsite. -/
def get? (c : Callees) (site : Callsite) : Option FunctionProfile :=
  c.forest.calleeAt? site c.ordered

/-- Puts a callee at a callsite, in place of the one that was there. -/
def insert (c : Callees) (site : Callsite) (callee : FunctionProfile) : Callees where
  forest := c.forest.putAt site callee.toBody callee.callees.forest
  ordered := Forest.ordered_putAt callee.callees.ordered c.ordered

/-- Changes the callee at a callsite, or puts the first one there. -/
def update (c : Callees) (site : Callsite) (f : Option FunctionProfile → FunctionProfile) :
    Callees :=
  c.insert site (f (c.get? site))

/-- The callees with their callsites, in order. -/
def toList (c : Callees) : List (Callsite × FunctionProfile) := c.forest.toList c.ordered

/-- The callees in the order of their callsites. -/
def values (c : Callees) : List FunctionProfile := c.toList.map Prod.snd

theorem values_cons {site : Callsite} {body : Body} {inner rest : Forest}
    (h : (Forest.cons site body inner rest).Ordered) :
    values ⟨.cons site body inner rest, h⟩
      = { body with callees := ⟨inner, h.2.1⟩ } :: values ⟨rest, h.2.2⟩ := rfl

/-- The callees of a list; of two at one callsite the later stays. -/
def ofList (entries : List (Callsite × FunctionProfile)) : Callees :=
  entries.foldl (fun c e => c.insert e.1 e.2) ∅

@[simp] theorem get?_empty (q : Callsite) : (∅ : Callees).get? q = none := rfl

theorem get?_insert (c : Callees) (site q : Callsite) (callee : FunctionProfile) :
    (c.insert site callee).get? q = if q = site then some callee else c.get? q :=
  Forest.calleeAt?_putAt callee.callees.ordered c.ordered q

theorem get?_update (c : Callees) (site q : Callsite)
    (f : Option FunctionProfile → FunctionProfile) :
    (c.update site f).get? q = if q = site then some (f (c.get? site)) else c.get? q :=
  get?_insert c site q _

/-- Callees with the same function at every callsite are equal. -/
theorem eq_of_get?_eq {c d : Callees} (h : ∀ q, c.get? q = d.get? q) : c = d :=
  Callees.ext (Forest.eq_of_calleeAt?_eq c.ordered d.ordered h)

end Callees

namespace FunctionProfile

/-- A function without samples. -/
def ofName (name : String) : FunctionProfile := { name }

/-- The function of a frame, without samples. -/
def ofFrame (f : Frame) : FunctionProfile :=
  { name := f.function, directory := f.directory, file := f.file, startLine := f.startLine }

instance : Inhabited FunctionProfile := ⟨ofName ""⟩

/-- The callee at a callsite. -/
def callee? (f : FunctionProfile) (site : Callsite) : Option FunctionProfile :=
  f.callees.get? site

/-- The node at the end of a path of callsites. -/
def nodeAt? : FunctionProfile → List Callsite → Option FunctionProfile
  | f, [] => some f
  | f, site :: path => (f.callee? site).bind fun c => c.nodeAt? path

/-- The number of nodes of the tree, the function itself included. -/
def nodeCount (f : FunctionProfile) : Nat := 1 + f.callees.forest.size

/-- The length of the longest chain of inlined callees. -/
def height (f : FunctionProfile) : Nat := f.callees.forest.height

end FunctionProfile

end SamplingProfile
