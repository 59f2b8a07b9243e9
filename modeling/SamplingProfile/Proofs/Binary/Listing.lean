-- Profiles of fixed width as they stand in the bytes: trees of lists, with the entries of a list in
-- any order, and names as texts or as places in a table. Here is said which bytes such a tree
-- takes, which trees are well formed, and which profile holds one. Nothing is said of how the bytes
-- are read.
import Mathlib.Tactic.MkIffOfInductiveProp
import SamplingProfile.Profile
import SamplingProfile.Proofs.Store.Entries

namespace SamplingProfile

theorem FunctionProfile.eq_with_iff {f : FunctionProfile} {body : Body} {callees : Callees} :
    f = { body with callees } ↔ f.toBody = body ∧ f.callees = callees := by
  constructor
  · rintro rfl
    exact ⟨rfl, rfl⟩
  · rintro ⟨rfl, rfl⟩
    rfl

namespace Binary

/-! ## Numbers and texts -/

/-- The forms whose numbers are of fixed width. -/
inductive FixedForm
  /-- Small numbers take 32 bits, and names stand where they are used. -/
  | narrow
  /-- Small numbers take 64 bits, and names stand in a table. -/
  | wide
deriving DecidableEq

/-- A count takes 64 bits in both forms. -/
def countBytes (c : Count) : List UInt8 := LittleEndian.encode 8 c.toNat

namespace FixedForm

/-- The version that has the form. -/
def version : FixedForm → Version
  | narrow => .fixed
  | wide => .wide

/-- The number of bytes of a small number. -/
def width : FixedForm → Nat
  | narrow => 4
  | wide => 8

/-- Whether a small number has room. -/
def Fits (form : FixedForm) (n : Nat) : Prop := n < LittleEndian.values form.width

/-- The bytes of a small number. -/
def small (form : FixedForm) (n : Nat) : List UInt8 := LittleEndian.encode form.width n

/-- The bytes of a text, its length in front. -/
def text (form : FixedForm) (s : String) : List UInt8 :=
  form.small (encodeText s).length ++ encodeText s

/-! ## The summary and the table -/

/-- The bytes of the coverage of a cutoff. -/
def coverage (form : FixedForm) (c : Coverage) : List UInt8 :=
  form.small c.cutoff.toNat ++ countBytes c.minCount ++ form.small c.numCounts

/-- The bytes of a summary, with a flag that says whether there is one. -/
def summary (form : FixedForm) : Option Summary → List UInt8
  | none => [0]
  | some s =>
    [1] ++ countBytes s.totalCount ++ countBytes s.maxCount ++ countBytes s.maxEntryCount
      ++ form.small s.numCounts ++ form.small s.numFunctions ++ form.small s.coverage.length
      ++ s.coverage.flatMap form.coverage

/-- Whether the numbers of a summary have room. -/
@[mk_iff] structure SummaryFits (form : FixedForm) (s : Summary) : Prop where
  numCounts : form.Fits s.numCounts
  numFunctions : form.Fits s.numFunctions
  length : form.Fits s.coverage.length
  coverage : ∀ c ∈ s.coverage, form.Fits c.numCounts

/-- The bytes of the name table. The narrow form has none. -/
def table (form : FixedForm) (names : List String) : List UInt8 :=
  match form with
  | narrow => []
  | wide => form.small names.length ++ names.flatMap form.text

/-- Whether the names can be the name table. -/
def TableFits (form : FixedForm) (names : List String) : Prop :=
  match form with
  | narrow => names = []
  | wide => form.Fits names.length ∧ ∀ s ∈ names, form.Fits (encodeText s).length

end FixedForm

/-! ## Trees of lists -/

/-- A name where it is used. -/
inductive ListedName
  /-- The name itself. -/
  | inlined (name : String)
  /-- Its place in the name table. -/
  | place (index : Nat)

/-- A location with the functions that are called from it. -/
structure ListedSample where
  location : Location
  count : Count
  instructions : Count
  targets : List (ListedName × Count)

/-- What a function holds itself. -/
structure ListedBody where
  name : ListedName
  directory : ListedName
  file : ListedName
  startLine : UInt32
  entryCount : Count
  samples : List ListedSample

/-- Callees in any order, each behind the location of its call. -/
inductive ListedCallees
  | nil
  | cons (location : Location) (body : ListedBody) (inner rest : ListedCallees)

/-- A function with its callees. -/
structure ListedFunction where
  body : ListedBody
  callees : ListedCallees

/-- All that stands behind the version number. -/
structure Listing where
  summary? : Option Summary
  names : List String
  functions : List ListedFunction

/-- The name that is meant. -/
def ListedName.said (names : List String) : ListedName → String
  | inlined name => name
  | place index => names[index]?.getD ""

/-- The name of the function that is called, and how often. -/
def saidTarget (names : List String) (t : ListedName × Count) : String × Count :=
  (t.1.said names, t.2)

namespace ListedCallees

/-- The callees one after the other. -/
def toList : ListedCallees → List (Location × ListedFunction)
  | nil => []
  | cons location body inner rest => (location, ⟨body, inner⟩) :: rest.toList

/-- The length of the longest chain of callees, each below the one before. -/
def height : ListedCallees → Nat
  | nil => 0
  | cons _ _ inner rest => max (1 + inner.height) rest.height

/-- The callsites of the first level. -/
def sites (names : List String) (c : ListedCallees) : List Callsite :=
  c.toList.map fun e => ⟨e.1, e.2.body.name.said names⟩

theorem sites_cons (names : List String) (location : Location) (body : ListedBody)
    (inner rest : ListedCallees) : (cons location body inner rest).sites names
      = ⟨location, body.name.said names⟩ :: rest.sites names := rfl

end ListedCallees

/-! ## Their bytes -/

section Bytes

variable (form : FixedForm)

/-- The bytes of a name. -/
def ListedName.bytes : ListedName → List UInt8
  | inlined name => form.text name
  | place index => form.small index

/-- The bytes of a function that is called. -/
def targetBytes (t : ListedName × Count) : List UInt8 := t.1.bytes form ++ countBytes t.2

/-- The bytes of a location. -/
def ListedSample.bytes (s : ListedSample) : List UInt8 :=
  form.small s.location.packed.toNat ++ countBytes s.count ++ countBytes s.instructions
    ++ form.small s.targets.length ++ s.targets.flatMap (targetBytes form)

/-- The bytes of what a function holds itself. -/
def ListedBody.bytes (b : ListedBody) : List UInt8 :=
  b.name.bytes form ++ b.directory.bytes form ++ b.file.bytes form ++ form.small b.startLine.toNat
    ++ countBytes b.entryCount ++ form.small b.samples.length
    ++ b.samples.flatMap (ListedSample.bytes form)

/-- The bytes of callees. -/
def ListedCallees.bytes : ListedCallees → List UInt8
  | nil => []
  | cons location body inner rest =>
    form.small location.packed.toNat
      ++ (body.bytes form ++ form.small inner.toList.length ++ inner.bytes) ++ rest.bytes

/-- The bytes of a function. -/
def ListedFunction.bytes (f : ListedFunction) : List UInt8 :=
  f.body.bytes form ++ form.small f.callees.toList.length ++ f.callees.bytes form

/-- The bytes behind the version number. -/
def Listing.sections (x : Listing) : List UInt8 :=
  form.summary x.summary? ++ form.table x.names ++ form.small x.functions.length
    ++ x.functions.flatMap (ListedFunction.bytes form)

/-- The bytes of a whole profile. -/
def Listing.bytes (x : Listing) : List UInt8 :=
  magic ++ LittleEndian.encode 8 form.version.number ++ x.sections form

end Bytes

/-! ## Trees that are well formed -/

section WellFormed

variable (form : FixedForm) (names : List String)

/-- The narrow form has a name itself, and the wide form its place, which is in the table. -/
def ListedName.WellFormed : ListedName → Prop
  | inlined name => form = .narrow ∧ form.Fits (encodeText name).length
  | place index => form = .wide ∧ form.Fits index ∧ index < names.length

@[mk_iff] structure ListedSample.WellFormed (s : ListedSample) : Prop where
  length : form.Fits s.targets.length
  targets : ∀ t ∈ s.targets, t.1.WellFormed form names
  distinct : (s.targets.map fun t => t.1.said names).Nodup

@[mk_iff] structure ListedBody.WellFormed (b : ListedBody) : Prop where
  name : b.name.WellFormed form names
  directory : b.directory.WellFormed form names
  file : b.file.WellFormed form names
  length : form.Fits b.samples.length
  samples : ∀ s ∈ b.samples, s.WellFormed form names
  distinct : (b.samples.map (·.location)).Nodup

/-- On every level no two callees of one name are called from one location. -/
def ListedCallees.WellFormed : ListedCallees → Prop
  | nil => True
  | cons location body inner rest =>
    ⟨location, body.name.said names⟩ ∉ rest.sites names ∧ body.WellFormed form names ∧
      form.Fits inner.toList.length ∧ inner.WellFormed ∧ rest.WellFormed

@[mk_iff] structure ListedFunction.WellFormed (f : ListedFunction) : Prop where
  body : f.body.WellFormed form names
  length : form.Fits f.callees.toList.length
  callees : f.callees.WellFormed form names

@[mk_iff] structure Listing.WellFormed (x : Listing) : Prop where
  summary : ∀ s ∈ x.summary?, form.SummaryFits s
  names : form.TableFits x.names
  length : form.Fits x.functions.length
  functions : ∀ f ∈ x.functions, f.WellFormed form x.names ∧ f.callees.height ≤ maxInlineDepth
  distinct : (x.functions.map fun f => f.body.name.said x.names).Nodup

instance (n : Nat) : Decidable (form.Fits n) := inferInstanceAs (Decidable (n < _))

instance (s : Summary) : Decidable (form.SummaryFits s) :=
  decidable_of_iff' _ (FixedForm.summaryFits_iff form s)

instance : Decidable (form.TableFits names) :=
  match form with
  | .narrow => inferInstanceAs (Decidable (names = []))
  | .wide => inferInstanceAs (Decidable (_ ∧ ∀ s ∈ names, _))

instance (name : ListedName) : Decidable (name.WellFormed form names) :=
  match name with
  | .inlined _ => inferInstanceAs (Decidable (_ ∧ _))
  | .place _ => inferInstanceAs (Decidable (_ ∧ _ ∧ _))

instance (s : ListedSample) : Decidable (s.WellFormed form names) :=
  decidable_of_iff' _ (ListedSample.wellFormed_iff form names s)

instance (b : ListedBody) : Decidable (b.WellFormed form names) :=
  decidable_of_iff' _ (ListedBody.wellFormed_iff form names b)

instance ListedCallees.decidableWellFormed :
    (c : ListedCallees) → Decidable (c.WellFormed form names)
  | nil => inferInstanceAs (Decidable True)
  | cons _ _ inner rest =>
    have := inner.decidableWellFormed
    have := rest.decidableWellFormed
    inferInstanceAs (Decidable (_ ∉ rest.sites names ∧ _ ∧ _ ∧ _ ∧ _))

instance (f : ListedFunction) : Decidable (f.WellFormed form names) :=
  decidable_of_iff' _ (ListedFunction.wellFormed_iff form names f)

instance (x : Listing) : Decidable (x.WellFormed form) :=
  decidable_of_iff' _ (Listing.wellFormed_iff form x)

end WellFormed

/-! ## The profile that holds a tree -/

section HeldAs

variable (names : List String)

/-- A tally holds the targets of a list and no others. -/
structure ListedSample.HeldAs (s : ListedSample) (t : Tally) : Prop where
  count : t.count = s.count
  instructions : t.instructions = s.instructions
  targets : t.targets.entries.Perm (s.targets.map (saidTarget names))

/-- A node holds the locations of a list and no others. -/
structure ListedBody.HeldAs (b : ListedBody) (body : Body) : Prop where
  name : body.name = b.name.said names
  directory : body.directory = b.directory.said names
  file : body.file = b.file.said names
  startLine : body.startLine = b.startLine
  entryCount : body.entryCount = b.entryCount
  samples : ∃ entries, body.samples.entries.Perm entries ∧
    List.Forall₂ (fun s e => e.1 = s.location ∧ s.HeldAs names e.2) b.samples entries

/-- Functions at their callsites hold the callees of a list, one each. -/
def ListedCallees.HeldAs : ListedCallees → List (Callsite × FunctionProfile) → Prop
  | nil, entries => entries = []
  | cons location body inner rest, entries =>
    ∃ f below others, entries = (⟨location, body.name.said names⟩, f) :: others ∧
      body.HeldAs names f.toBody ∧ f.callees.toList.Perm below ∧ inner.HeldAs below ∧
      rest.HeldAs others

/-- A function holds the locations and the callees of a list and no others. -/
def ListedFunction.HeldAs (f : ListedFunction) (g : FunctionProfile) : Prop :=
  f.body.HeldAs names g.toBody ∧
    ∃ below, g.callees.toList.Perm below ∧ f.callees.HeldAs names below

/-- A profile holds the functions of a list and no others. -/
structure Listing.HeldAs (form : FixedForm) (x : Listing) (p : Profile) : Prop where
  format : p.format = .binary form.version
  summary : p.summary? = x.summary?
  functions : ∃ fs, p.store.toList.Perm fs ∧
    List.Forall₂ (ListedFunction.HeldAs x.names) x.functions fs

end HeldAs

/-! ## What is built from a tree -/

section Value

variable (names : List String)

/-- The tally of a location. -/
def ListedSample.tally (s : ListedSample) : Tally where
  count := s.count
  instructions := s.instructions
  targets := .ofList (s.targets.map (saidTarget names))

/-- The location with its tally. -/
def ListedSample.entry (s : ListedSample) : Location × Tally := (s.location, s.tally names)

/-- The node that a function is. -/
def ListedBody.value (b : ListedBody) : Body where
  name := b.name.said names
  directory := b.directory.said names
  file := b.file.said names
  startLine := b.startLine
  entryCount := b.entryCount
  samples := .ofList (b.samples.map (ListedSample.entry names))

/-- The callees at their callsites. -/
def ListedCallees.entries : ListedCallees → List (Callsite × FunctionProfile)
  | nil => []
  | cons location body inner rest =>
    (⟨location, body.name.said names⟩,
      { body.value names with callees := .ofList inner.entries }) :: rest.entries

/-- The function with its callees. -/
def ListedFunction.value (f : ListedFunction) : FunctionProfile :=
  { f.body.value names with callees := .ofList (f.callees.entries names) }

/-- The profile with the functions. -/
def Listing.value (form : FixedForm) (x : Listing) : Profile where
  format := .binary form.version
  store := .ofList (x.functions.map (ListedFunction.value x.names))
  summary? := x.summary?

end Value

/-! ## Both are one -/

theorem forall₂_iff_eq_map {α β : Type} {R : α → β → Prop} {g : α → β} {xs : List α}
    (h : ∀ x ∈ xs, ∀ y, R x y ↔ y = g x) {ys : List β} :
    List.Forall₂ R xs ys ↔ ys = xs.map g := by
  induction xs generalizing ys with
  | nil => simp
  | cons x xs ih =>
    rw [List.forall_mem_cons] at h
    cases ys with
    | nil => simp
    | cons y ys => rw [List.forall₂_cons, h.1 y, ih h.2, List.map_cons, List.cons.injEq]

section Unique

variable {form : FixedForm} {names : List String}

theorem ListedSample.WellFormed.nodup {s : ListedSample} (h : s.WellFormed form names) :
    ((s.targets.map (saidTarget names)).map Prod.fst).Nodup := by
  rw [List.map_map]
  exact h.distinct

theorem ListedSample.heldAs_iff {s : ListedSample} (h : s.WellFormed form names) {t : Tally} :
    s.HeldAs names t ↔ t = s.tally names := by
  constructor
  · rintro ⟨hcount, hinstructions, htargets⟩
    rw [SortedMap.perm_iff h.nodup] at htargets
    cases t
    simp_all [tally]
  · rintro rfl
    exact ⟨rfl, rfl, SortedMap.perm_ofList h.nodup⟩

theorem ListedBody.WellFormed.nodup {b : ListedBody} (h : b.WellFormed form names) :
    ((b.samples.map (ListedSample.entry names)).map Prod.fst).Nodup := by
  rw [List.map_map]
  exact h.distinct

theorem ListedBody.heldAs_iff {b : ListedBody} (h : b.WellFormed form names) {body : Body} :
    b.HeldAs names body ↔ body = b.value names := by
  have hentry : ∀ s ∈ b.samples, ∀ e : Location × Tally,
      (e.1 = s.location ∧ s.HeldAs names e.2) ↔ e = s.entry names := by
    intro s hs e
    rw [ListedSample.heldAs_iff (h.samples s hs), ListedSample.entry, Prod.ext_iff]
  constructor
  · rintro ⟨hname, hdirectory, hfile, hline, hcount, entries, hperm, hentries⟩
    rw [forall₂_iff_eq_map hentry] at hentries
    rw [hentries, SortedMap.perm_iff h.nodup] at hperm
    cases body
    simp_all [value]
  · rintro rfl
    exact ⟨rfl, rfl, rfl, rfl, rfl, _, SortedMap.perm_ofList h.nodup,
      (forall₂_iff_eq_map hentry).2 rfl⟩

theorem ListedCallees.map_fst_entries (c : ListedCallees) :
    (c.entries names).map Prod.fst = c.sites names := by
  induction c with
  | nil => rfl
  | cons location body inner rest _ ih =>
    rw [entries, List.map_cons, ih, sites_cons]

theorem ListedCallees.WellFormed.nodup {c : ListedCallees} (h : c.WellFormed form names) :
    ((c.entries names).map Prod.fst).Nodup := by
  rw [map_fst_entries]
  induction c with
  | nil => exact List.nodup_nil
  | cons location body inner rest _ ih => exact List.nodup_cons.2 ⟨h.1, ih h.2.2.2.2⟩

theorem ListedCallees.heldAs_iff {c : ListedCallees} (h : c.WellFormed form names)
    {entries : List (Callsite × FunctionProfile)} :
    c.HeldAs names entries ↔ entries = c.entries names := by
  induction c generalizing entries with
  | nil => rfl
  | cons location body inner rest ihInner ihRest =>
    obtain ⟨-, hbody, -, hinner, hrest⟩ := h
    constructor
    · rintro ⟨f, below, others, rfl, hf, hperm, hbelow, hothers⟩
      rw [ihInner hinner] at hbelow
      rw [hbelow, Callees.perm_iff hinner.nodup] at hperm
      rw [ListedBody.heldAs_iff hbody] at hf
      rw [ihRest hrest] at hothers
      rw [ListedCallees.entries, hothers, FunctionProfile.eq_with_iff.2 ⟨hf, hperm⟩]
    · rintro rfl
      exact ⟨_, _, _, rfl, (ListedBody.heldAs_iff hbody).2 rfl,
        Callees.perm_ofList hinner.nodup, (ihInner hinner).2 rfl, (ihRest hrest).2 rfl⟩

theorem ListedFunction.heldAs_iff {f : ListedFunction} (h : f.WellFormed form names)
    {g : FunctionProfile} : f.HeldAs names g ↔ g = f.value names := by
  rw [HeldAs, ListedBody.heldAs_iff h.body, value, FunctionProfile.eq_with_iff]
  simp only [ListedCallees.heldAs_iff h.callees, exists_eq_right, Callees.perm_iff h.callees.nodup]

theorem Listing.WellFormed.nodup {x : Listing} (h : x.WellFormed form) :
    ((x.functions.map (ListedFunction.value x.names)).map (·.name)).Nodup := by
  rw [List.map_map]
  exact h.distinct

/-- A profile that holds a tree that is well formed is what is built from it. -/
theorem Listing.heldAs_iff {x : Listing} (h : x.WellFormed form) {p : Profile} :
    x.HeldAs form p ↔ p = x.value form := by
  have hvalue : ∀ f ∈ x.functions, ∀ g, f.HeldAs x.names g ↔ g = f.value x.names :=
    fun f hf g => ListedFunction.heldAs_iff (h.functions f hf).1
  constructor
  · rintro ⟨hformat, hsummary, fs, hperm, hfs⟩
    rw [(forall₂_iff_eq_map hvalue).1 hfs, Store.perm_iff h.nodup] at hperm
    cases p
    simp_all [value]
  · rintro rfl
    exact ⟨rfl, rfl, _, Store.perm_ofList h.nodup, (forall₂_iff_eq_map hvalue).2 rfl⟩

end Unique

end Binary

end SamplingProfile
