-- Where a writer has room for what it writes. Every name stands in the table, which was made of the
-- same nodes, and every number has room but in the narrow form, where a length may not fit. Of what
-- has no room the first is named.
import SamplingProfile.Binary.Write
import SamplingProfile.Proofs.Store.NameRules
import SamplingProfile.Proofs.Store.SummaryCounts

namespace SamplingProfile

/-- The numbers of a summary, and how many cutoffs it covers, are below a limit. -/
structure Summary.Below (x : Summary) (limit : Nat) : Prop where
  numCounts : x.numCounts < limit
  numFunctions : x.numFunctions < limit
  length : x.coverage.length < limit
  coverage : ∀ c ∈ x.coverage, c.numCounts < limit

/-! ## Outputs that fit -/

namespace Output

/-- The output is whole if everything fits; otherwise a number stops it that is too large for its
field. -/
def Fits (o : Output) (version : Nat) (fits : Prop) : Prop :=
  (fits ∧ o.error? = none) ∨ (¬fits ∧ ∃ field, o.error? = some (.tooLarge version field))

variable {o a b : Output} {version : Nat} {p q : Prop}

theorem error?_append (a b : Output) : (a ++ b).error? = a.error?.or b.error? := by
  rcases a with ⟨front, _ | e⟩ <;> rfl

theorem fits_ofBytes (bytes : List UInt8) : Fits ⟨bytes, none⟩ version True := .inl ⟨trivial, rfl⟩

theorem Fits.congr (h : o.Fits version p) (hpq : p ↔ q) : o.Fits version q := by
  unfold Fits at h ⊢
  rwa [← hpq]

/-- What fits is written to its end. -/
theorem Fits.eq_bytes (h : o.Fits version p) (hp : p) : o = ⟨o.bytes, none⟩ := by
  rcases h with ⟨-, h⟩ | ⟨hnot, -⟩
  · rw [← h]
  · exact absurd hp hnot

/-- Two parts fit when both do; of two that do not fit the first one stops the output. -/
theorem Fits.append (ha : a.Fits version p) (hb : b.Fits version q) :
    (a ++ b).Fits version (p ∧ q) := by
  unfold Fits
  rw [error?_append]
  rcases ha with ⟨hp, ha⟩ | ⟨hp, field, ha⟩
  · rw [ha, Option.none_or]
    rcases hb with ⟨hq, hb⟩ | ⟨hq, field, hb⟩
    · exact .inl ⟨⟨hp, hq⟩, hb⟩
    · exact .inr ⟨fun h => hq h.2, field, hb⟩
  · rw [ha, Option.some_or]
    exact .inr ⟨fun h => hp h.1, field, rfl⟩

theorem fits_nil : (concat []).Fits version True := fits_ofBytes []

theorem fits_cons {rest : List Output} (ho : o.Fits version p)
    (hrest : (concat rest).Fits version q) : (concat (o :: rest)).Fits version (p ∧ q) :=
  ho.append hrest

theorem fits_concat_map {ι : Type} {xs : List ι} {write : ι → Output} {fits : ι → Prop}
    (h : ∀ x ∈ xs, (write x).Fits version (fits x)) :
    (concat (xs.map write)).Fits version (∀ x ∈ xs, fits x) := by
  induction xs with
  | nil => exact fits_nil.congr (by simp)
  | cons x xs ih =>
    rw [List.forall_mem_cons] at h
    exact (fits_cons h.1 (ih h.2)).congr List.forall_mem_cons.symm

end Output

/-! ## Every node -/

namespace FunctionProfile

variable {p : FunctionProfile → Prop} {f : FunctionProfile}

/-- What holds of the function and of all callees below it. -/
def Every (p : FunctionProfile → Prop) (f : FunctionProfile) : Prop :=
  ∀ path node, f.nodeAt? path = some node → p node

theorem every_iff : f.Every p ↔ p f ∧ ∀ site c, f.callee? site = some c → c.Every p := by
  constructor
  · intro h
    refine ⟨h [] f rfl, fun site c hc path node hnode => ?_⟩
    exact h (site :: path) node (nodeAt?_cons_eq_some_iff.2 ⟨c, hc, hnode⟩)
  · rintro ⟨hf, hbelow⟩ path node hnode
    cases path with
    | nil =>
      cases hnode
      exact hf
    | cons site path =>
      obtain ⟨c, hc, hnode⟩ := nodeAt?_cons_eq_some_iff.1 hnode
      exact hbelow site c hc path node hnode

end FunctionProfile

namespace Binary

open Output

/-! ## Room -/

/-- Whether a version has a place for a number: the narrow form has 32 bits, the others are made for
whatever can be counted. -/
def Version.HasRoom (v : Version) (n : Nat) : Prop := v = .fixed → n < UInt32.size

namespace Layout

/-- The same told of a layout, whichever version it belongs to. -/
def HasRoom (l : Layout) (n : Nat) : Prop := l.integers = .narrow → n < UInt32.size

theorem integers_layout_iff {v : Version} : v.layout.integers = .narrow ↔ v = .fixed := by
  cases v <;> simp [Version.layout]

theorem number_layout (v : Version) : v.layout.version.number = v.number := by
  cases v <;> rfl

theorem hasRoom_layout_iff {v : Version} {n : Nat} : v.layout.HasRoom n ↔ v.HasRoom n := by
  unfold HasRoom Version.HasRoom
  rw [integers_layout_iff]

end Layout

/-- A version has room for what a node holds itself. -/
def FitsBody (v : Version) (b : Body) : Prop :=
  (∀ name ∈ b.names, v.HasRoom (encodeText name).length) ∧ v.HasRoom b.samples.size ∧
    ∀ tally ∈ b.samples.values, v.HasRoom tally.targets.size

/-- The same told place by place. -/
theorem fitsBody_iff {v : Version} {b : Body} :
    FitsBody v b ↔
      (∀ part ∈ [b.name, b.directory, b.file], v.HasRoom (encodeText part).length) ∧
        v.HasRoom b.samples.size ∧
        ∀ location tally, b.samples.get? location = some tally → v.HasRoom tally.targets.size ∧
          ∀ called count, tally.targets.get? called = some count →
            v.HasRoom (encodeText called).length := by
  have hnames : b.names = [b.name, b.directory, b.file] ++
      b.samples.values.flatMap fun tally => tally.targets.keys := rfl
  simp only [FitsBody, hnames, List.forall_mem_append, List.forall_mem_flatMap,
    SortedMap.mem_values_iff, SortedMap.mem_keys_iff, forall_exists_index, and_assoc]
  constructor
  · rintro ⟨hparts, hcalled, hsize, htargets⟩
    exact ⟨hparts, hsize, fun location tally h =>
      ⟨htargets tally location h, fun called count => hcalled tally location h called count⟩⟩
  · rintro ⟨hparts, hsize, htallies⟩
    exact ⟨hparts, fun tally location h called count => (htallies location tally h).2 called count,
      hsize, fun tally location h => (htallies location tally h).1⟩

/-- A version has room for a node, whatever its callees are. -/
def FitsNode (v : Version) (node : FunctionProfile) : Prop :=
  FitsBody v node.toBody ∧ v.HasRoom node.callees.forest.sites.length

/-- A version has room for a store, and for its summary if that is written. -/
def FitsStore (v : Version) (withSummary : Bool) (s : Store) : Prop :=
  (withSummary = true → v.HasRoom s.sampleCounts.length) ∧ v.HasRoom s.size ∧
    ∀ f ∈ s.toList, f.Every (FitsNode v)

/-! ## Names in the table -/

namespace NameTable

/-- The table has the names, if the version writes names as places in it. -/
def Covers (table : NameTable) (v : Version) (names : List String) : Prop :=
  v ≠ .fixed → ∀ name ∈ names, name ∈ table.names

theorem Covers.mono {table : NameTable} {v : Version} {names fewer : List String}
    (h : table.Covers v names) (hsub : fewer ⊆ names) : table.Covers v fewer :=
  fun hv name hname => h hv name (hsub hname)

theorem exists_index? {table : NameTable} {name : String} (h : name ∈ table.names) :
    ∃ i, table.index? name = some i := by
  rw [← Option.isSome_iff_exists, index?, List.findIdx?_isSome, List.any_eq_true]
  exact ⟨name, h, beq_self_eq_true name⟩

theorem mem_names_ofNames {names : List String} {name : String} (h : name ∈ names) :
    name ∈ (ofNames names).names := by
  have hsome : ((ofNames names).entries.get? name).isSome := by
    rw [ofNames, SortedMap.get?_ofList, isSome_lastUnder?_iff]
    simpa using h
  obtain ⟨value, hvalue⟩ := Option.isSome_iff_exists.1 hsome
  exact List.mem_map_of_mem ((SortedMap.mem_entries_iff _ _ _).2 hvalue)

/-- The table of a store has the names of all its nodes. -/
theorem covers_ofStore (v : Version) (s : Store) {f : FunctionProfile} (hf : f ∈ s.toList) :
    (ofStore v.layout s).Covers v f.names := by
  intro hv name hname
  have hall := mem_names_ofNames (List.mem_flatMap_of_mem hf hname)
  cases v with
  | fixed => exact absurd rfl hv
  | wide => exact hall
  | compact => exact hall

end NameTable

/-! ## Numbers and the summary -/

namespace Layout

variable (l : Layout)

theorem fits_writeSmall (field : Field) (n : Nat) :
    (l.writeSmall field n).Fits l.version.number (l.HasRoom n) := by
  unfold writeSmall HasRoom
  cases l.integers with
  | narrow =>
    dsimp only
    by_cases hn : n < UInt32.size
    · rw [if_pos hn]
      exact .inl ⟨fun _ => hn, rfl⟩
    · rw [if_neg hn]
      exact .inr ⟨fun h => hn (h rfl), field, rfl⟩
  | wide => exact .inl ⟨fun h => (nomatch h), rfl⟩
  | leb128 => exact .inl ⟨fun h => (nomatch h), rfl⟩

theorem fits_writeWord (field : Field) (n : UInt32) :
    (l.writeSmall field n.toNat).Fits l.version.number True :=
  (l.fits_writeSmall field n.toNat).congr (iff_true_intro fun _ => n.toNat_lt)

theorem fits_writeCount (count : Count) : (l.writeCount count).Fits l.version.number True := by
  unfold writeCount
  cases l.integers <;> exact fits_ofBytes _

theorem fits_writeText (name : String) :
    (l.writeText name).Fits l.version.number (l.HasRoom (encodeText name).length) :=
  ((l.fits_writeSmall .nameLength _).append (Output.fits_ofBytes _)).congr
    (iff_of_eq (and_true _))

/-- Where there is a table a name is written as its number. -/
theorem writeName_eq (hl : l.names ≠ .inlined) {table : NameTable} {name : String} {i : Nat}
    (hi : table.index? name = some i) : l.writeName table name = l.writeSmall .nameIndex i := by
  unfold writeName
  cases hn : l.names with
  | inlined => exact absurd hn hl
  | table | compressibleTable =>
    dsimp only
    rw [hi]

theorem fits_writeCoverage (c : Coverage) :
    (l.writeCoverage c).Fits l.version.number (l.HasRoom c.numCounts) :=
  (((l.fits_writeWord .cutoff c.cutoff).append (l.fits_writeCount c.minCount)).append
    (l.fits_writeSmall .cutoffCount c.numCounts)).congr (by simp)

/-- Whatever a summary says it fits, unless the numbers are narrow and one of its own is not. -/
theorem fits_writeSummary (x : Summary) :
    (l.writeSummary (some x)).Fits l.version.number
      (l.integers = .narrow → x.Below UInt32.size) := by
  refine (fits_cons (fits_ofBytes [1]) <| fits_cons (l.fits_writeCount x.totalCount) <|
    fits_cons (l.fits_writeCount x.maxCount) <| fits_cons (l.fits_writeCount x.maxEntryCount) <|
    fits_cons (l.fits_writeSmall .numberOfCounts x.numCounts) <|
    fits_cons (l.fits_writeSmall .numberOfFunctions x.numFunctions) <|
    fits_cons (l.fits_writeSmall .numberOfCutoffs x.coverage.length) <|
    fits_cons (fits_concat_map fun c _ => l.fits_writeCoverage c) fits_nil).congr ?_
  unfold HasRoom
  constructor
  · rintro ⟨-, -, -, -, hcounts, hfunctions, hlength, hcoverage, -⟩ hl
    exact ⟨hcounts hl, hfunctions hl, hlength hl, fun c hc => hcoverage c hc hl⟩
  · intro h
    exact ⟨trivial, trivial, trivial, trivial, fun hl => (h hl).numCounts,
      fun hl => (h hl).numFunctions, fun hl => (h hl).length,
      fun c hc hl => (h hl).coverage c hc, trivial⟩

end Layout

/-! ## Parts -/

section Parts

variable (v : Version) {table : NameTable}

theorem fits_writeSmall (field : Field) (n : Nat) :
    (v.layout.writeSmall field n).Fits v.number (v.HasRoom n) := by
  have h := v.layout.fits_writeSmall field n
  rw [Layout.number_layout] at h
  exact h.congr Layout.hasRoom_layout_iff

theorem fits_writeWord (field : Field) (n : UInt32) :
    (v.layout.writeSmall field n.toNat).Fits v.number True := by
  have h := v.layout.fits_writeWord field n
  rwa [Layout.number_layout] at h

theorem fits_writeCount (count : Count) : (v.layout.writeCount count).Fits v.number True := by
  have h := v.layout.fits_writeCount count
  rwa [Layout.number_layout] at h

theorem fits_writeText (name : String) :
    (v.layout.writeText name).Fits v.number (v.HasRoom (encodeText name).length) := by
  have h := v.layout.fits_writeText name
  rw [Layout.number_layout] at h
  exact h.congr Layout.hasRoom_layout_iff

/-- Where there is a table its numbers have 64 bits. -/
theorem fits_writeTable (compress : Bool) (deflate : List UInt8 → List UInt8) :
    (v.layout.writeTable table compress deflate).Fits v.number True := by
  cases v with
  | fixed => exact fits_ofBytes []
  | wide =>
    refine ((fits_writeSmall .wide .nameCount _).append
      (fits_concat_map fun name _ => fits_writeText .wide name)).congr (iff_true_intro ?_)
    exact ⟨fun h => (nomatch h), fun _ _ h => (nomatch h)⟩
  | compact => exact fits_ofBytes _

theorem writeSmall_of_ne_fixed (hv : v ≠ .fixed) (field : Field) (n : Nat) :
    (v.layout.writeSmall field n).error? = none := by
  cases v with
  | fixed => exact absurd rfl hv
  | wide => rfl
  | compact => rfl

/-- A name that the table has is never missed. -/
theorem fits_writeName {name : String} (h : table.Covers v [name]) :
    (v.layout.writeName table name).Fits v.number (v.HasRoom (encodeText name).length) := by
  by_cases hv : v = .fixed
  · rw [hv]
    exact fits_writeText .fixed name
  · obtain ⟨i, hi⟩ := NameTable.exists_index? (h hv name List.mem_cons_self)
    have hnames : v.layout.names ≠ .inlined := by
      cases v with
      | fixed => exact absurd rfl hv
      | wide | compact => decide
    refine .inl ⟨fun hfixed => absurd hfixed hv, ?_⟩
    rw [v.layout.writeName_eq hnames hi, writeSmall_of_ne_fixed v hv]

/-- The summary of a store fits if its counts and its functions can be numbered. -/
theorem fits_writeSummary {s : Store} {x : Summary} (hx : s.summary defaultCutoffs = .ok x) :
    (v.layout.writeSummary (some x)).Fits v.number
      (v.HasRoom s.sampleCounts.length ∧ v.HasRoom s.size) := by
  have h := v.layout.fits_writeSummary x
  rw [Layout.number_layout, Layout.integers_layout_iff] at h
  refine h.congr ?_
  obtain ⟨hcounts, hfunctions, hwithin⟩ := Store.summary_eq_ok hx
  rw [Store.summary_eq] at hx
  have hlength : x.coverage.length = 16 := by
    rw [(Summary.isOf_of_ofCounts hx).coverage, List.length_map]
    rfl
  rw [← hcounts, ← hfunctions]
  constructor
  · intro hx
    exact ⟨fun hv => (hx hv).numCounts, fun hv => (hx hv).numFunctions⟩
  · rintro ⟨hroom, hroom'⟩ hv
    refine ⟨hroom hv, hroom' hv, ?_, fun c hc => ?_⟩
    · rw [hlength]
      decide
    · exact Nat.lt_of_le_of_lt (hcounts ▸ hwithin c hc) (hroom hv)

theorem fits_writeTarget {target : String × Count} (h : table.Covers v [target.1]) :
    (v.layout.writeTarget table target).Fits v.number
      (v.HasRoom (encodeText target.1).length) :=
  ((fits_writeName v h).append (fits_writeCount v target.2)).congr (iff_of_eq (and_true _))

theorem fits_writeSample {sample : Location × Tally}
    (h : table.Covers v sample.2.targets.keys) :
    (v.layout.writeSample table sample).Fits v.number
      (v.HasRoom sample.2.targets.size ∧
        ∀ name ∈ sample.2.targets.keys, v.HasRoom (encodeText name).length) := by
  have htargets : ∀ t ∈ sample.2.targets.entries, (v.layout.writeTarget table t).Fits v.number
      (v.HasRoom (encodeText t.1).length) := by
    intro t ht
    have hkey : t.1 ∈ sample.2.targets.keys := List.mem_map_of_mem ht
    exact fits_writeTarget v (h.mono (by simpa using hkey))
  refine (fits_cons (fits_writeWord v .offset sample.1.packed) <|
    fits_cons (fits_writeCount v sample.2.count) <|
    fits_cons (fits_writeCount v sample.2.instructions) <|
    fits_cons (fits_writeSmall v .targetCount sample.2.targets.size) <|
    fits_cons (fits_concat_map htargets) fits_nil).congr ?_
  simp [SortedMap.keys]

theorem fits_writeBody {b : Body} (h : table.Covers v b.names) :
    (v.layout.writeBody table b).Fits v.number (FitsBody v b) := by
  have hname : ∀ name ∈ b.names, table.Covers v [name] := by
    intro name hname
    exact h.mono (by simpa using hname)
  have hsamples : ∀ sample ∈ b.samples.entries, (v.layout.writeSample table sample).Fits v.number
      (v.HasRoom sample.2.targets.size ∧
        ∀ name ∈ sample.2.targets.keys, v.HasRoom (encodeText name).length) := by
    intro sample hsample
    refine fits_writeSample v (h.mono fun name hname => ?_)
    have hmem : sample.2 ∈ b.samples.values := List.mem_map_of_mem hsample
    simp only [Body.names, List.mem_cons, List.mem_flatMap]
    exact .inr (.inr (.inr ⟨_, hmem, hname⟩))
  refine (fits_cons (fits_writeName v (hname b.name (by simp [Body.names]))) <|
    fits_cons (fits_writeName v (hname b.directory (by simp [Body.names]))) <|
    fits_cons (fits_writeName v (hname b.file (by simp [Body.names]))) <|
    fits_cons (fits_writeWord v .startLine b.startLine) <|
    fits_cons (fits_writeCount v b.entryCount) <|
    fits_cons (fits_writeSmall v .locationCount b.samples.size) <|
    fits_cons (fits_concat_map hsamples) fits_nil).congr ?_
  simp only [FitsBody, Body.names, SortedMap.values, List.forall_mem_cons, List.forall_mem_flatMap,
    List.forall_mem_map, forall_and]
  tauto

/-! ## Trees -/

theorem fits_writeForest {forest : Forest} (h : forest.Ordered)
    (hnames : table.Covers v forest.names) :
    (v.layout.writeForest table forest).Fits v.number
      (∀ site c, forest.calleeAt? site h = some c → c.Every (FitsNode v)) := by
  induction forest with
  | nil => exact (fits_ofBytes []).congr (iff_of_true trivial fun _ _ hc => (nomatch hc))
  | cons site body inner rest ihInner ihRest =>
    have hcovers : table.Covers v body.names :=
      hnames.mono fun name hname => by simp [Forest.names, hname]
    have hbody := fits_writeBody v hcovers
    have hinner := ihInner h.2.1 (hnames.mono fun name hname => by simp [Forest.names, hname])
    have hrest := ihRest h.2.2 (hnames.mono fun name hname => by simp [Forest.names, hname])
    refine (fits_cons (fits_writeWord v .offset site.location.packed) <|
      fits_cons hbody <|
      fits_cons (fits_writeSmall v .callsiteCount inner.sites.length) <|
      fits_cons hinner <| fits_cons hrest fits_nil).congr ?_
    rw [Forest.forall_calleeAt?_cons h, FunctionProfile.every_iff]
    simp only [FitsNode, FunctionProfile.callee?, Callees.get?]
    tauto

theorem fits_writeFunction {f : FunctionProfile} (h : table.Covers v f.names) :
    (v.layout.writeFunction table f).Fits v.number (f.Every (FitsNode v)) := by
  have hbody := fits_writeBody v (h.mono (List.subset_append_left f.toBody.names _))
  have hcallees := fits_writeForest v f.callees.ordered
    (h.mono (List.subset_append_right _ f.callees.forest.names))
  refine (fits_cons hbody <|
    fits_cons (fits_writeSmall v .callsiteCount f.callees.forest.sites.length) <|
    fits_cons hcallees fits_nil).congr ?_
  rw [FunctionProfile.every_iff]
  simp only [FitsNode, FunctionProfile.callee?, Callees.get?]
  tauto

end Parts

/-! ## Whole profiles -/

theorem fits_writeProfile (v : Version) (compress : Bool) (s : Store) (summary? : Option Summary)
    (hsummary : ∀ x, summary? = some x → s.summary defaultCutoffs = .ok x)
    (deflate : List UInt8 → List UInt8) :
    (v.layout.writeProfile compress s summary? deflate).Fits v.number
      (FitsStore v summary?.isSome s) := by
  have hfunctions : ∀ f ∈ s.toList,
      (v.layout.writeFunction (NameTable.ofStore v.layout s) f).Fits v.number
        (f.Every (FitsNode v)) :=
    fun f hf => fits_writeFunction v (NameTable.covers_ofStore v s hf)
  have hprofile : ∀ p, (v.layout.writeSummary summary?).Fits v.number p →
      (v.layout.writeProfile compress s summary? deflate).Fits v.number
        (p ∧ v.HasRoom s.size ∧ ∀ f ∈ s.toList, f.Every (FitsNode v)) := by
    intro p hp
    refine (fits_cons (fits_ofBytes magic) <| fits_cons (fits_ofBytes _) <| fits_cons hp <|
      fits_cons (fits_writeTable v compress deflate) <|
      fits_cons (fits_writeSmall v .functionCount s.size) <|
      fits_cons (fits_concat_map hfunctions) fits_nil).congr ?_
    tauto
  cases summary? with
  | none => exact (hprofile True (fits_ofBytes [0])).congr (by simp [FitsStore])
  | some x =>
    refine (hprofile _ (fits_writeSummary v (hsummary x rfl))).congr ?_
    simp only [FitsStore, Option.isSome_some, forall_const]
    tauto

end Binary

end SamplingProfile
