-- A profile of the narrow form that was read and is written again. Nothing of it is lost, so it
-- takes as many bytes as before; and they are the same bytes if all entries stood in the order in
-- which a writer puts them.
import SamplingProfile.Proofs.Binary.FixedGrammar
import SamplingProfile.Proofs.Reading.LegalProfiles

namespace SamplingProfile

/-! ## Outputs and the bytes that were there before -/

/-- The output goes on to its end and is as long as the bytes. It is these bytes if their entries
were in order. -/
structure Output.Reproduces (o : Output) (bytes : List UInt8) (ordered : Prop) : Prop where
  complete : o.error? = none
  length : o.bytes.length = bytes.length
  same : ordered → o.bytes = bytes

namespace Output

variable {a b o : Output} {bytes more : List UInt8} {ordered : Prop}

theorem reproduces_of_eq (h : o = ⟨bytes, none⟩) : o.Reproduces bytes ordered := by
  subst h
  exact ⟨rfl, rfl, fun _ => rfl⟩

theorem Reproduces.eq (h : o.Reproduces bytes ordered) (ho : ordered) : o = ⟨bytes, none⟩ := by
  rw [← h.same ho, ← h.complete]

theorem Reproduces.mono {weaker : Prop} (h : o.Reproduces bytes weaker) (hw : ordered → weaker) :
    o.Reproduces bytes ordered :=
  ⟨h.complete, h.length, fun ho => h.same (hw ho)⟩

theorem Reproduces.append (ha : a.Reproduces bytes ordered) (hb : b.Reproduces more ordered) :
    (a ++ b).Reproduces (bytes ++ more) ordered := by
  obtain ⟨written, rfl⟩ : ∃ written, a = ⟨written, none⟩ := ⟨a.bytes, by rw [← ha.complete]⟩
  refine ⟨hb.complete, ?_, fun ho => ?_⟩
  · show (written ++ b.bytes).length = _
    simp [← ha.length, hb.length]
  · show written ++ b.bytes = _
    rw [← ha.same ho, hb.same ho]

theorem reproduces_concat {ι : Type} {write : ι → Output} {before : ι → List UInt8} {xs : List ι}
    (h : ∀ x ∈ xs, (write x).Reproduces (before x) ordered) :
    (concat (xs.map write)).Reproduces (xs.flatMap before) ordered := by
  induction xs with
  | nil => exact reproduces_of_eq rfl
  | cons x xs ih =>
    rw [List.forall_mem_cons] at h
    exact h.1.append (ih h.2)

theorem concat_of_complete {outputs : List Output} (h : ∀ o ∈ outputs, o.error? = none) :
    concat outputs = ⟨outputs.flatMap (·.bytes), none⟩ := by
  induction outputs with
  | nil => rfl
  | cons o rest ih =>
    rw [List.forall_mem_cons] at h
    rcases o with ⟨written, error?⟩
    cases h.1
    simp [ih h.2, append_ofBytes]

/-- Entries that are written in the order of their keys take as many bytes as in the order in which
they stood. -/
theorem reproduces_of_perm {ι ε κ : Type} [Ord κ] [Std.OrientedOrd κ] {write : ε → Output}
    {entry : ι → ε} {key : ε → κ} {before : ι → List UInt8} {entries : List ε} {xs : List ι}
    (hperm : entries.Perm (xs.map entry)) (hkeys : Increasing (entries.map key))
    (hordered : ordered → Increasing (xs.map fun x => key (entry x)))
    (h : ∀ x ∈ xs, (write (entry x)).Reproduces (before x) ordered) :
    (concat (entries.map write)).Reproduces (xs.flatMap before) ordered := by
  have hxs := reproduces_concat h
  have hcomplete : ∀ o ∈ xs.map (fun x => write (entry x)), o.error? = none := by
    intro o ho
    obtain ⟨x, hx, rfl⟩ := List.mem_map.1 ho
    exact (h x hx).complete
  have hmoved : (entries.map write).Perm (xs.map fun x => write (entry x)) := by
    simpa [Function.comp_def] using hperm.map write
  have hconcat := concat_of_complete fun o ho => hcomplete o (hmoved.mem_iff.1 ho)
  refine ⟨by simp [hconcat], ?_, fun ho => ?_⟩
  · -- the same outputs, in another order
    rw [← hxs.length, hconcat, concat_of_complete hcomplete]
    exact (hmoved.flatMap_right _).length_eq
  · have hincreasing : Increasing ((xs.map entry).map key) := by
      simpa [Function.comp_def] using hordered ho
    have hsame := eq_of_perm_of_increasing hperm hkeys hincreasing
    simp [← hxs.same ho, hsame, Function.comp_def]

end Output

/-! ## Trees in order -/

namespace Binary

section Ordered

variable (names : List String)

/-- The targets are in the order of their names. -/
def ListedSample.InOrder (s : ListedSample) : Prop :=
  Increasing (s.targets.map fun t => t.1.said names)

/-- The locations are in order, and the targets of each. -/
def ListedBody.InOrder (b : ListedBody) : Prop :=
  Increasing (b.samples.map (·.location)) ∧ ∀ s ∈ b.samples, s.InOrder names

/-- On every level the callees are in the order of their callsites, and each of them is in order. -/
def ListedCallees.InOrder : ListedCallees → Prop
  | nil => True
  | cons location body inner rest =>
    (∀ site ∈ rest.sites names, compare ⟨location, body.name.said names⟩ site = .lt) ∧
      body.InOrder names ∧ inner.InOrder ∧ rest.InOrder

/-- The function is in order, and its callees are. -/
def ListedFunction.InOrder (f : ListedFunction) : Prop :=
  f.body.InOrder names ∧ f.callees.InOrder names

end Ordered

/-- All functions are in the order of their names, and each of them is in order. -/
def Listing.InOrder (x : Listing) : Prop :=
  Increasing (x.functions.map fun f => f.body.name.said x.names) ∧
    ∀ f ∈ x.functions, f.InOrder x.names

section Decidable

variable (names : List String)

instance (s : ListedSample) : Decidable (s.InOrder names) :=
  inferInstanceAs (Decidable (Increasing _))

instance (b : ListedBody) : Decidable (b.InOrder names) :=
  inferInstanceAs (Decidable (_ ∧ ∀ s ∈ b.samples, _))

instance ListedCallees.decidableInOrder : (c : ListedCallees) → Decidable (c.InOrder names)
  | nil => inferInstanceAs (Decidable True)
  | cons _ _ inner rest =>
    have := inner.decidableInOrder
    have := rest.decidableInOrder
    inferInstanceAs (Decidable ((∀ site ∈ rest.sites names, _) ∧ _ ∧ _ ∧ _))

instance (f : ListedFunction) : Decidable (f.InOrder names) :=
  inferInstanceAs (Decidable (_ ∧ _))

instance (x : Listing) : Decidable x.InOrder :=
  inferInstanceAs (Decidable (_ ∧ ∀ f ∈ x.functions, _))

end Decidable

theorem ListedCallees.inOrder_iff {names : List String} {c : ListedCallees} :
    c.InOrder names ↔ Increasing (c.sites names) ∧ ∀ e ∈ c.toList, e.2.InOrder names := by
  induction c with
  | nil => simp [InOrder, Increasing, toList, sites]
  | cons location body inner rest _ ih =>
    rw [InOrder, ih, toList, List.forall_mem_cons, sites_cons, increasing_cons_iff]
    constructor
    · rintro ⟨hfirst, hbody, hinner, hrest, hall⟩
      exact ⟨⟨hfirst, hrest⟩, ⟨hbody, hinner⟩, hall⟩
    · rintro ⟨⟨hfirst, hrest⟩, ⟨hbody, hinner⟩, hall⟩
      exact ⟨hfirst, hbody, hinner, hrest, hall⟩

/-! ## Writing again -/

/-- Writes a callee behind the location of its call. -/
def Layout.writeCallee (l : Layout) (table : NameTable) (e : Callsite × FunctionProfile) : Output :=
  l.writeSmall .offset e.1.location.packed.toNat ++ l.writeFunction table e.2

theorem Layout.writeForest_eq_concat (l : Layout) (table : NameTable) {f : Forest}
    (h : f.Ordered) : l.writeForest table f = .concat ((f.toList h).map (l.writeCallee table)) := by
  induction f with
  | nil => rfl
  | cons site body inner rest _ ih =>
    rw [writeForest_cons, ih h.2.2, Forest.toList, List.map_cons, Output.concat_cons, writeCallee,
      writeFunction_eq]

/-- A function is written with the list of its callees behind it. -/
theorem Layout.writeFunction_eq_concat (l : Layout) (table : NameTable) (f : FunctionProfile) :
    l.writeFunction table f = l.writeBody table f.toBody
      ++ (l.writeSmall .callsiteCount f.callees.toList.length
        ++ .concat (f.callees.toList.map (l.writeCallee table))) := by
  have hsites := Forest.map_fst_toList f.callees.ordered
  rw [writeFunction_eq, writeNode, writeForest_eq_concat l table f.callees.ordered, ← hsites,
    List.length_map]
  rfl

namespace FixedForm

variable {names : List String} {table : NameTable} {ordered : Prop}

theorem reproduces_writeSmall (field : Field) {n : Nat} (h : narrow.Fits n) :
    (narrow.layout.writeSmall field n).Reproduces (narrow.small n) ordered :=
  Output.reproduces_of_eq (if_pos h)

theorem reproduces_writeCount (c : Count) :
    (narrow.layout.writeCount c).Reproduces (countBytes c) ordered :=
  Output.reproduces_of_eq rfl

theorem reproduces_writeCoverage {c : Coverage} (h : narrow.Fits c.numCounts) :
    (narrow.layout.writeCoverage c).Reproduces (narrow.coverage c) ordered := by
  unfold Layout.writeCoverage FixedForm.coverage
  rw [Output.append_assoc, List.append_assoc]
  apply (reproduces_writeSmall .cutoff (narrow.fits_word c.cutoff)).append
  apply (reproduces_writeCount c.minCount).append
  exact reproduces_writeSmall .cutoffCount h

theorem reproduces_writeSummary {s? : Option Summary} (h : ∀ s ∈ s?, narrow.SummaryFits s) :
    (narrow.layout.writeSummary s?).Reproduces (narrow.summary s?) ordered := by
  cases s? with
  | none => exact Output.reproduces_of_eq rfl
  | some s =>
    rcases h s rfl with ⟨hcounts, hfunctions, hlength, hcoverage⟩
    simp only [Layout.writeSummary, Output.concat_cons, Output.concat_nil, Output.append_empty,
      FixedForm.summary, List.append_assoc]
    apply (Output.reproduces_of_eq rfl).append
    apply (reproduces_writeCount s.totalCount).append
    apply (reproduces_writeCount s.maxCount).append
    apply (reproduces_writeCount s.maxEntryCount).append
    apply (reproduces_writeSmall .numberOfCounts hcounts).append
    apply (reproduces_writeSmall .numberOfFunctions hfunctions).append
    apply (reproduces_writeSmall .numberOfCutoffs hlength).append
    exact Output.reproduces_concat fun c hc => reproduces_writeCoverage (hcoverage c hc)

theorem reproduces_writeName {name : ListedName} (h : name.WellFormed narrow names) :
    (narrow.layout.writeName table (name.said names)).Reproduces (name.bytes narrow) ordered := by
  cases name with
  | inlined name =>
    apply (reproduces_writeSmall .nameLength h.2).append
    exact Output.reproduces_of_eq rfl
  | place index => cases h.1

theorem reproduces_writeTarget {t : ListedName × Count} (h : t.1.WellFormed narrow names) :
    (narrow.layout.writeTarget table (saidTarget names t)).Reproduces (targetBytes narrow t)
      ordered :=
  (reproduces_writeName h).append (reproduces_writeCount t.2)

theorem reproduces_writeSample {s : ListedSample} (h : s.WellFormed narrow names) :
    (narrow.layout.writeSample table (s.entry names)).Reproduces (s.bytes narrow)
      (s.InOrder names) := by
  have hperm := SortedMap.perm_ofList h.nodup
  have hsize : (s.tally names).targets.size = s.targets.length :=
    hperm.length_eq.trans (List.length_map _)
  simp only [Layout.writeSample, ListedSample.entry, hsize, Output.concat_cons, Output.concat_nil,
    Output.append_empty, ListedSample.bytes, List.append_assoc]
  apply (reproduces_writeSmall .offset (narrow.fits_word _)).append
  apply (reproduces_writeCount s.count).append
  apply (reproduces_writeCount s.instructions).append
  apply (reproduces_writeSmall .targetCount h.length).append
  exact Output.reproduces_of_perm hperm (s.tally names).targets.increasing_keys (fun ho => ho)
    fun t ht => reproduces_writeTarget (h.targets t ht)

theorem reproduces_writeBody {b : ListedBody} (h : b.WellFormed narrow names) :
    (narrow.layout.writeBody table (b.value names)).Reproduces (b.bytes narrow)
      (b.InOrder names) := by
  have hperm := SortedMap.perm_ofList h.nodup
  have hsize : (b.value names).samples.size = b.samples.length :=
    hperm.length_eq.trans (List.length_map _)
  simp only [Layout.writeBody, hsize, Output.concat_cons, Output.concat_nil, Output.append_empty,
    ListedBody.bytes, List.append_assoc]
  apply (reproduces_writeName h.name).append
  apply (reproduces_writeName h.directory).append
  apply (reproduces_writeName h.file).append
  apply (reproduces_writeSmall .startLine (narrow.fits_word _)).append
  apply (reproduces_writeCount b.entryCount).append
  apply (reproduces_writeSmall .locationCount h.length).append
  exact Output.reproduces_of_perm hperm (b.value names).samples.increasing_keys (fun ho => ho.1)
    fun s hs => (reproduces_writeSample (h.samples s hs)).mono fun ho => ho.2 s hs

theorem reproduces_writeFunction {f : ListedFunction} (h : f.WellFormed narrow names)
    (hcallees : ∀ e ∈ f.callees.toList,
      (narrow.layout.writeFunction table (e.2.value names)).Reproduces (e.2.bytes narrow)
        (e.2.InOrder names)) :
    (narrow.layout.writeFunction table (f.value names)).Reproduces (f.bytes narrow)
      (f.InOrder names) := by
  have hperm : (f.value names).callees.toList.Perm (f.callees.toList.map (calleeEntry names)) := by
    rw [← ListedCallees.entries_eq_map]
    exact Callees.perm_ofList h.callees.nodup
  have hsize : (f.value names).callees.toList.length = f.callees.toList.length :=
    hperm.length_eq.trans (List.length_map _)
  rw [Layout.writeFunction_eq_concat, hsize, ListedFunction.bytes, List.append_assoc,
    ListedCallees.bytes_eq_flatMap]
  apply ((reproduces_writeBody h.body).mono fun ho => ho.1).append
  apply (reproduces_writeSmall .callsiteCount h.length).append
  refine Output.reproduces_of_perm hperm (Callees.increasing_toList _) (fun ho => ?_) fun e he => ?_
  · exact (ListedCallees.inOrder_iff.1 ho.2).1
  · apply (reproduces_writeSmall .offset (narrow.fits_word _)).append
    exact (hcallees e he).mono fun ho => (ListedCallees.inOrder_iff.1 ho.2).2 e he

theorem reproduces_writeCallees {c : ListedCallees} (h : c.WellFormed narrow names) :
    ∀ e ∈ c.toList, (narrow.layout.writeFunction table (e.2.value names)).Reproduces
      (e.2.bytes narrow) (e.2.InOrder names) := by
  induction c with
  | nil => exact fun e he => nomatch he
  | cons location body inner rest ihInner ihRest =>
    rcases h with ⟨-, hbody, hlength, hinner, hrest⟩
    have hfirst := reproduces_writeFunction (f := ⟨body, inner⟩) ⟨hbody, hlength, hinner⟩
      (ihInner hinner)
    exact List.forall_mem_cons.2 ⟨hfirst, ihRest hrest⟩

theorem reproduces_writeProfile {x : Listing} (h : x.WellFormed narrow) (compress : Bool)
    (deflate : List UInt8 → List UInt8) :
    (narrow.layout.writeProfile compress (x.value narrow).store x.summary? deflate).Reproduces
      (x.bytes narrow) x.InOrder := by
  have hperm := Store.perm_ofList h.nodup
  have hsize : (x.value narrow).store.size = x.functions.length := by
    rw [← List.length_map (ListedFunction.value x.names), ← hperm.length_eq]
    exact (List.length_map _).symm
  have htable : ∀ table, narrow.layout.writeTable table compress deflate = .empty := fun _ => rfl
  have hnone : narrow.table x.names = [] := rfl
  simp only [Layout.writeProfile, htable, hsize, hnone, Output.concat_cons, Output.concat_nil,
    Output.append_empty, Output.empty_append, Listing.bytes, Listing.sections, List.append_nil,
    List.append_assoc]
  apply (Output.reproduces_of_eq rfl).append
  apply (Output.reproduces_of_eq rfl).append
  apply (reproduces_writeSummary h.summary).append
  apply (reproduces_writeSmall .functionCount h.length).append
  refine Output.reproduces_of_perm hperm (Store.increasing_toList _) (fun ho => ho.1) fun f hf => ?_
  have hf' := (h.functions f hf).1
  exact (reproduces_writeFunction hf' (reproduces_writeCallees hf'.callees)).mono
    fun ho => ho.2 f hf

end FixedForm

end Binary

namespace Profile

open Binary

/-- A profile of the narrow form that was read is written again without an error and with as many
bytes as it had. The bytes are the same if the entries of every list in them were in order, and then
a writer of stores gives them as well, if there was no summary. -/
theorem narrow_profile_is_reproduced {bytes : List UInt8} {p : Profile}
    (h : ofBinary bytes = .ok p) (hp : p.format = .binary .fixed) (compress : Bool)
    (deflate : List UInt8 → List UInt8) :
    ∃ written,
      Version.fixed.layout.writeProfile compress p.store p.summary? deflate = ⟨written, none⟩ ∧
      written.length = bytes.length ∧
      (∃ x : Listing, x.WellFormed .narrow ∧ bytes = x.bytes .narrow) ∧
      ∀ x : Listing, x.WellFormed .narrow → bytes = x.bytes .narrow → x.InOrder →
        written = bytes ∧
        (p.summary? = none →
          ({ version := .fixed, compressNames := compress, includeSummary := false } :
            Writer).write p.store deflate = ⟨bytes, none⟩) := by
  have hagain : ∀ x : Listing, x.WellFormed .narrow → bytes = x.bytes .narrow →
      (Version.fixed.layout.writeProfile compress p.store p.summary? deflate).Reproduces bytes
        x.InOrder := by
    rintro x hx rfl
    obtain ⟨hread, -⟩ := (ofBinary_eq_ok_iff .narrow).2 ⟨x, hx, rfl, rfl⟩
    rw [h] at hread
    cases hread
    exact FixedForm.reproduces_writeProfile hx compress deflate
  obtain ⟨x, hx, hbytes, -⟩ := (ofBinary_eq_ok_iff .narrow).1 ⟨h, hp⟩
  have hlegal := legal_of_ofBytes (ofBytes_of_ofBinary h)
  refine ⟨_, by rw [← (hagain x hx hbytes).complete], (hagain x hx hbytes).length,
    ⟨x, hx, hbytes⟩, fun y hy hy' hordered => ?_⟩
  refine ⟨(hagain y hy hy').same hordered, fun hnone => ?_⟩
  have hwritten := (hagain y hy hy').eq hordered
  rw [hnone] at hwritten
  unfold Writer.write
  rw [hlegal.tooDeep?_eq_none]
  exact hwritten

/-- A node of the narrow form without samples. -/
def emptyBody (name : String) : ListedBody :=
  ⟨.inlined name, .inlined "", .inlined "", 0, 0, []⟩

/-- Two functions. The first has two locations, one with two targets, and calls two functions from
one location, the second of which calls another. -/
def listedInOrder : Listing where
  summary? := none
  names := []
  functions := [
    { body := { emptyBody "f" with
        startLine := 3
        entryCount := 7
        samples := [⟨⟨5⟩, 9, 1, [(.inlined "a", 2), (.inlined "b", 18446744073709551615)]⟩,
          ⟨⟨65536⟩, 4, 1, []⟩] }
      callees := .cons ⟨8⟩ (emptyBody "g") .nil
        (.cons ⟨8⟩ (emptyBody "h") (.cons ⟨0⟩ (emptyBody "g") .nil .nil) .nil) },
    { body := emptyBody "g", callees := .nil }]

/-- Its bytes are read, and come back from the writer of stores. -/
theorem listedInOrder_is_reproduced : ∃ p written,
    ofBinary (listedInOrder.bytes .narrow) = .ok p ∧ p.format = .binary .fixed ∧
      Version.fixed.layout.writeProfile false p.store p.summary? = ⟨written, none⟩ ∧
      written = listedInOrder.bytes .narrow ∧
      ({ version := .fixed, includeSummary := false } : Writer).write p.store
        = ⟨listedInOrder.bytes .narrow, none⟩ := by
  have hx : listedInOrder.WellFormed .narrow := by decide +kernel
  have hordered : listedInOrder.InOrder := by decide +kernel
  obtain ⟨h, hp⟩ := (ofBinary_eq_ok_iff .narrow).2 ⟨listedInOrder, hx, rfl, rfl⟩
  obtain ⟨written, hwritten, -, -, hsame⟩ := narrow_profile_is_reproduced h hp false Zlib.deflate
  obtain ⟨heq, hwriter⟩ := hsame listedInOrder hx rfl hordered
  exact ⟨_, written, h, hp, hwritten, heq, hwriter rfl⟩

end Profile

end SamplingProfile
