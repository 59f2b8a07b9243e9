-- The readers of the forms of fixed width accept the trees that are well formed, and nothing else.
-- Each reader is matched with a part of the tree, from the numbers up to the whole profile.
import SamplingProfile.Proofs.Binary.Delimited
import SamplingProfile.Proofs.Binary.Listing
import SamplingProfile.Proofs.Binary.Trees
import SamplingProfile.Proofs.Reading.Grammar

namespace SamplingProfile

namespace Binary

open Reader

/-! ## Callees as a list -/

/-- The bytes of a callee. -/
def calleeBytes (form : FixedForm) (e : Location × ListedFunction) : List UInt8 :=
  form.small e.1.packed.toNat ++ e.2.bytes form

/-- A callee at its callsite. -/
def calleeEntry (names : List String) (e : Location × ListedFunction) :
    Callsite × FunctionProfile :=
  (⟨e.1, e.2.body.name.said names⟩, e.2.value names)

namespace ListedCallees

/-- The callees of a list. -/
def ofList : List (Location × ListedFunction) → ListedCallees
  | [] => nil
  | (location, f) :: rest => cons location f.body f.callees (ofList rest)

@[simp] theorem toList_ofList (list : List (Location × ListedFunction)) :
    (ofList list).toList = list := by
  induction list with
  | nil => rfl
  | cons e rest ih => simp [ofList, toList, ih]

theorem bytes_eq_flatMap (form : FixedForm) (c : ListedCallees) :
    c.bytes form = c.toList.flatMap (calleeBytes form) := by
  induction c with
  | nil => rfl
  | cons location body inner rest _ ih =>
    simp [bytes, ih, toList, calleeBytes, ListedFunction.bytes]

theorem entries_eq_map (names : List String) (c : ListedCallees) :
    c.entries names = c.toList.map (calleeEntry names) := by
  induction c with
  | nil => rfl
  | cons location body inner rest _ ih =>
    simp [entries, ih, toList, calleeEntry, ListedFunction.value]

theorem wellFormed_iff {form : FixedForm} {names : List String} {c : ListedCallees} :
    c.WellFormed form names ↔
      (∀ e ∈ c.toList, e.2.WellFormed form names) ∧ (c.sites names).Nodup := by
  induction c with
  | nil => simp [WellFormed, toList, sites]
  | cons location body inner rest _ ih =>
    rw [WellFormed, ih, toList, List.forall_mem_cons, sites_cons, List.nodup_cons]
    constructor
    · rintro ⟨hnew, hbody, hlength, hinner, hall, hnodup⟩
      exact ⟨⟨⟨hbody, hlength, hinner⟩, hall⟩, hnew, hnodup⟩
    · rintro ⟨⟨⟨hbody, hlength, hinner⟩, hall⟩, hnew, hnodup⟩
      exact ⟨hnew, hbody, hlength, hinner, hall, hnodup⟩

theorem height_lt_succ_iff {c : ListedCallees} {levels : Nat} :
    c.height < levels + 1 ↔ ∀ e ∈ c.toList, e.2.callees.height < levels := by
  induction c with
  | nil => simp [height, toList]
  | cons location body inner rest _ ih =>
    rw [height, toList, List.forall_mem_cons, ← ih]
    dsimp only
    omega

end ListedCallees

namespace FixedForm

variable (form : FixedForm)

/-- How the form writes what a profile holds. -/
abbrev layout : Layout := form.version.layout

/-! ## Numbers and names -/

theorem accepts_readSmall : form.layout.readSmall.Accepts form.Fits form.small fun n => n := by
  cases form with
  | narrow => exact accepts_littleEndian 4
  | wide => exact accepts_littleEndian 8

theorem fits_word (w : UInt32) : form.Fits w.toNat := by
  have hlt := w.toNat_lt
  unfold Fits
  cases form with
  | narrow => exact hlt
  | wide => exact Nat.lt_trans hlt (by decide)

theorem accepts_readWord :
    form.layout.readWord.Accepts (fun _ => True) (fun w => form.small w.toNat) fun w => w := by
  refine accepts_get_bind fun span => ?_
  refine Accepts.transfer (form.accepts_readSmall.check fun n => accepts_ite _ span _) ?_ ?_
  · intro w _
    exact ⟨w.toNat, ⟨form.fits_word w, w.toNat_lt⟩, rfl, UInt32.ofNat_toNat⟩
  · rintro n ⟨-, hlt⟩
    exact ⟨UInt32.ofNat n, trivial, by rw [UInt32.toNat_ofNat_of_lt' hlt], rfl⟩

theorem accepts_readCount :
    form.layout.readCount.Accepts (fun _ => True) countBytes fun c => c := by
  have hcount : Accepts (do return UInt64.ofNat (← littleEndian 8)) (fun _ => True) countBytes
      fun c => c := by
    refine Accepts.transfer ((accepts_littleEndian 8).map _) ?_ ?_
    · intro c _
      exact ⟨c.toNat, c.toNat_lt, rfl, UInt64.ofNat_toNat⟩
    · intro n hn
      exact ⟨UInt64.ofNat n, trivial, by rw [countBytes, UInt64.toNat_ofNat_of_lt' hn], rfl⟩
  cases form with
  | narrow => exact hcount
  | wide => exact hcount

theorem accepts_readText :
    form.layout.readText.Accepts (fun s => form.Fits (encodeText s).length) form.text
      fun s => s := by
  have htext : ∀ n, (Reader.text n).Accepts (fun s => (encodeText s).length = n ∧ True) encodeText
      fun s => s := by
    simpa using accepts_text
  have hcounted := form.accepts_readSmall.counted htext
  simp only [and_true] at hcounted
  exact hcounted

theorem accepts_readTable :
    form.layout.readTable.Accepts form.TableFits form.table List.toArray := by
  cases form with
  | narrow => exact accepts_pure ⟨[], rfl⟩ fun names h => ⟨rfl, by rw [h]⟩
  | wide =>
    have h := wide.accepts_readSmall.counted_repeated wide.accepts_readText
      (Layout.consuming_readText _) List.toArray
    simp only [List.map_id'] at h
    exact h

theorem accepts_readName (names : List String) :
    (form.layout.readName names.toArray).Accepts (ListedName.WellFormed form names)
      (ListedName.bytes form) (ListedName.said names) := by
  cases form with
  | narrow =>
    refine Accepts.transfer narrow.accepts_readText ?_ ?_
    · rintro (name | index) h
      · exact ⟨name, h.2, rfl, rfl⟩
      · cases h.1
    · intro name h
      exact ⟨.inlined name, ⟨rfl, h⟩, rfl, rfl⟩
  | wide =>
    have hindex : (wide.layout.readName names.toArray).Accepts
        (fun index => wide.Fits index ∧ index < names.length) wide.small
        (fun index => names[index]?.getD "") := by
      refine accepts_get_bind fun span => wide.accepts_readSmall.check fun index => ?_
      rw [List.getElem?_toArray]
      cases hname : names[index]? with
      | none =>
        rw [List.getElem?_eq_none_iff] at hname
        exact accepts_failAt _ _ fun _ => Nat.not_lt_of_le hname
      | some name =>
        obtain ⟨hlt, -⟩ := List.getElem?_eq_some_iff.1 hname
        exact accepts_pure ⟨(), hlt⟩ fun _ _ => ⟨rfl, rfl⟩
    refine hindex.transfer ?_ ?_
    · rintro (name | index) h
      · cases h.1
      · exact ⟨index, h.2, rfl, rfl⟩
    · intro index h
      exact ⟨.place index, ⟨rfl, h⟩, rfl, rfl⟩

/-! ## The summary -/

theorem accepts_readCoverage :
    form.layout.readCoverage.Accepts (fun c => form.Fits c.numCounts) form.coverage
      fun c => c := by
  refine Accepts.transfer (form.accepts_readWord.bind fun cutoff _ =>
    form.accepts_readCount.bind fun minCount _ => form.accepts_readSmall.map _) ?_ ?_
  · intro c hc
    exact ⟨(c.cutoff, c.minCount, c.numCounts), ⟨trivial, trivial, hc⟩, by simp [coverage], rfl⟩
  · rintro ⟨cutoff, minCount, numCounts⟩ ⟨-, -, hfits⟩
    exact ⟨⟨cutoff, minCount, numCounts⟩, hfits, by simp [coverage], rfl⟩

/-- The bytes of a summary behind the flag. -/
theorem accepts_readSummaryFields :
    form.layout.readSummaryFields.Accepts form.SummaryFits
      (fun s => (form.summary (some s)).tail) fun s => s := by
  refine Accepts.transfer (form.accepts_readCount.bind fun totalCount _ =>
    form.accepts_readCount.bind fun maxCount _ => form.accepts_readCount.bind fun maxEntryCount _ =>
    form.accepts_readSmall.bind fun numCounts _ => form.accepts_readSmall.bind fun numFunctions _ =>
    form.accepts_readSmall.counted_repeated form.accepts_readCoverage
      (Layout.consuming_readCoverage _) _) ?_ ?_
  · intro s hs
    exact ⟨(s.totalCount, s.maxCount, s.maxEntryCount, s.numCounts, s.numFunctions, s.coverage),
      ⟨trivial, trivial, trivial, hs.1, hs.2, hs.3, hs.4⟩, by simp [summary], by simp⟩
  · rintro ⟨totalCount, maxCount, maxEntryCount, numCounts, numFunctions, coverage⟩
      ⟨-, -, -, hcounts, hfunctions, hlength, hcoverage⟩
    exact ⟨⟨totalCount, maxCount, maxEntryCount, numCounts, numFunctions, coverage⟩,
      ⟨hcounts, hfunctions, hlength, hcoverage⟩, by simp [summary], by simp⟩

theorem accepts_readSummary :
    form.layout.readSummary.Accepts (fun s? => ∀ s ∈ s?, form.SummaryFits s)
      form.summary fun s? => s? := by
  have hflag : form.layout.readSummary.Accepts
      (fun s? => s?.toList.length < LittleEndian.values 1 ∧ ∀ s ∈ s?, form.SummaryFits s)
      (fun s? => LittleEndian.encode 1 s?.toList.length ++ (form.summary s?).tail)
      fun s? => s? := by
    -- the flag is the number of summaries, so it is told by the item like a length
    refine (accepts_littleEndian 1).counted fun flag => ?_
    match flag with
    | 0 =>
      refine accepts_pure ⟨none, by simp⟩ ?_
      rintro (_ | s) ⟨hlen, -⟩
      · exact ⟨rfl, rfl⟩
      · cases hlen
    | 1 =>
      refine Accepts.transfer (form.accepts_readSummaryFields.map some) ?_ ?_
      · rintro (_ | s) ⟨hlen, hs⟩
        · cases hlen
        · exact ⟨s, hs s rfl, rfl, rfl⟩
      · intro s hs
        exact ⟨some s, ⟨rfl, by simpa using hs⟩, rfl, rfl⟩
    | flag + 2 =>
      refine accepts_get_bind fun span => accepts_failAt span _ ?_
      rintro (_ | s) ⟨hlen, -⟩
      · cases hlen
      · cases hlen
  refine hflag.transfer ?_ ?_
  · rintro (_ | s) hs
    · exact ⟨none, ⟨by decide, hs⟩, rfl, rfl⟩
    · have hone : 1 < LittleEndian.values 1 := by decide
      exact ⟨some s, ⟨hone, hs⟩, by simp [summary, LittleEndian.encode], rfl⟩
  · rintro (_ | s) ⟨-, hs⟩
    · exact ⟨none, hs, rfl, rfl⟩
    · exact ⟨some s, hs, by simp [summary, LittleEndian.encode], rfl⟩

/-! ## Functions -/

variable (names : List String)

theorem accepts_readTarget :
    (form.layout.readTarget names.toArray).Accepts (fun t => t.1.WellFormed form names)
      (targetBytes form) (saidTarget names) := by
  refine Accepts.transfer ((form.accepts_readName names).bind fun name _ =>
    form.accepts_readCount.map _) ?_ ?_
  · rintro ⟨name, count⟩ h
    exact ⟨(name, count), ⟨h, trivial⟩, rfl, rfl⟩
  · rintro ⟨name, count⟩ ⟨h, -⟩
    exact ⟨(name, count), h, rfl, rfl⟩

theorem accepts_readSample :
    (form.layout.readSample names.toArray).Accepts (ListedSample.WellFormed form names)
      (ListedSample.bytes form) (ListedSample.entry names) := by
  refine Accepts.transfer (form.accepts_readWord.bind fun packed _ =>
    form.accepts_readCount.bind fun count _ => form.accepts_readCount.bind fun instructions _ =>
    form.accepts_readSmall.counted_distinct (form.accepts_readTarget names) _ _) ?_ ?_
  · rintro ⟨location, count, instructions, targets⟩ ⟨hlength, htargets, hdistinct⟩
    exact ⟨(location.packed, count, instructions, targets),
      ⟨trivial, trivial, trivial, hlength, htargets, hdistinct⟩,
      by simp [ListedSample.bytes], rfl⟩
  · rintro ⟨packed, count, instructions, targets⟩ ⟨-, -, -, hlength, htargets, hdistinct⟩
    exact ⟨⟨⟨packed⟩, count, instructions, targets⟩, ⟨hlength, htargets, hdistinct⟩,
      by simp [ListedSample.bytes], rfl⟩

theorem accepts_readBody :
    (form.layout.readBody names.toArray).Accepts (ListedBody.WellFormed form names)
      (ListedBody.bytes form) (ListedBody.value names) := by
  refine Accepts.transfer ((form.accepts_readName names).bind fun name _ =>
    (form.accepts_readName names).bind fun directory _ =>
    (form.accepts_readName names).bind fun file _ => form.accepts_readWord.bind fun startLine _ =>
    form.accepts_readCount.bind fun entryCount _ =>
    form.accepts_readSmall.counted_distinct (form.accepts_readSample names) _ _) ?_ ?_
  · rintro ⟨name, directory, file, startLine, entryCount, samples⟩ h
    exact ⟨(name, directory, file, startLine, entryCount, samples),
      ⟨h.name, h.directory, h.file, trivial, trivial, h.length, h.samples, h.distinct⟩,
      by simp [ListedBody.bytes], rfl⟩
  · rintro ⟨name, directory, file, startLine, entryCount, samples⟩
      ⟨hname, hdirectory, hfile, -, -, hlength, hsamples, hdistinct⟩
    exact ⟨⟨name, directory, file, startLine, entryCount, samples⟩,
      ⟨hname, hdirectory, hfile, hlength, hsamples, hdistinct⟩, by simp [ListedBody.bytes], rfl⟩

theorem accepts_readCallee {levels : Nat}
    (h : (form.layout.readFunction names.toArray levels).Accepts
      (fun f => f.WellFormed form names ∧ f.callees.height < levels) (ListedFunction.bytes form)
      (ListedFunction.value names)) :
    (form.layout.readCallee names.toArray levels).Accepts
      (fun e => e.2.WellFormed form names ∧ e.2.callees.height < levels) (calleeBytes form)
      (calleeEntry names) := by
  refine Accepts.transfer (form.accepts_readWord.bind fun packed _ => h.map _) ?_ ?_
  · rintro ⟨location, f⟩ hf
    exact ⟨(location.packed, f), ⟨trivial, hf⟩, rfl, rfl⟩
  · rintro ⟨packed, f⟩ ⟨-, hf⟩
    exact ⟨(⟨packed⟩, f), hf, rfl, rfl⟩

/-- With some levels left a function may have callees on fewer levels. -/
theorem accepts_readFunction (levels : Nat) :
    (form.layout.readFunction names.toArray levels).Accepts
      (fun f => f.WellFormed form names ∧ f.callees.height < levels) (ListedFunction.bytes form)
      (ListedFunction.value names) := by
  induction levels with
  | zero =>
    exact accepts_get_bind fun span =>
      accepts_failAt span .inlinedTooDeep fun f h => Nat.not_lt_zero _ h.2
  | succ levels ih =>
    -- one level is for the function itself, and the others are left to its callees
    refine Accepts.transfer ((form.accepts_readBody names).bind fun body _ =>
      form.accepts_readSmall.counted_distinct (form.accepts_readCallee names ih) _ _) ?_ ?_
    · rintro ⟨body, callees⟩ ⟨⟨hbody, hlength, hcallees⟩, hheight⟩
      rw [ListedCallees.wellFormed_iff] at hcallees
      rw [ListedCallees.height_lt_succ_iff] at hheight
      refine ⟨(body, callees.toList), ⟨hbody, hlength, fun e he => ?_, hcallees.2⟩, ?_, ?_⟩
      · exact ⟨hcallees.1 e he, hheight e he⟩
      · simp [ListedFunction.bytes, ListedCallees.bytes_eq_flatMap]
      · simp only [ListedFunction.value, ListedCallees.entries_eq_map]
    · rintro ⟨body, callees⟩ ⟨hbody, hlength, hcallees, hdistinct⟩
      refine ⟨⟨body, .ofList callees⟩, ⟨⟨hbody, ?_, ?_⟩, ?_⟩, ?_, ?_⟩
      · simpa using hlength
      · rw [ListedCallees.wellFormed_iff, ListedCallees.sites, ListedCallees.toList_ofList]
        exact ⟨fun e he => (hcallees e he).1, hdistinct⟩
      · rw [ListedCallees.height_lt_succ_iff, ListedCallees.toList_ofList]
        exact fun e he => (hcallees e he).2
      · simp [ListedFunction.bytes, ListedCallees.bytes_eq_flatMap]
      · simp only [ListedFunction.value, ListedCallees.entries_eq_map, ListedCallees.toList_ofList]

theorem accepts_readEntry :
    (form.layout.readEntry names.toArray).Accepts
      (fun f => f.WellFormed form names ∧ f.callees.height ≤ maxInlineDepth)
      (ListedFunction.bytes form) fun f => (f.body.name.said names, f.value names) := by
  refine Accepts.transfer
    (((form.accepts_readFunction names (maxInlineDepth + 1)).within .function).map _) ?_ ?_
  · rintro f ⟨hf, hheight⟩
    exact ⟨f, ⟨hf, Nat.lt_succ_of_le hheight⟩, rfl, rfl⟩
  · rintro f ⟨hf, hheight⟩
    exact ⟨f, ⟨hf, Nat.le_of_lt_succ hheight⟩, rfl, rfl⟩

/-! ## Profiles -/

theorem accepts_readSections :
    form.layout.readSections.Accepts (Listing.WellFormed form) (Listing.sections form)
      fun x => ((x.value form).store, x.summary?) := by
  refine Accepts.transfer ((form.accepts_readSummary.within .summary).bind fun summary? _ =>
    (form.accepts_readTable.within .nameTable).bind fun names _ =>
    form.accepts_readSmall.counted_distinct (form.accepts_readEntry names) _ _) ?_ ?_
  · rintro ⟨summary?, names, functions⟩ ⟨hsummary, hnames, hlength, hfunctions, hdistinct⟩
    exact ⟨(summary?, names, functions), ⟨hsummary, hnames, hlength, hfunctions, hdistinct⟩,
      by simp [Listing.sections], by simp [Listing.value, Function.comp_def]⟩
  · rintro ⟨summary?, names, functions⟩ ⟨hsummary, hnames, hlength, hfunctions, hdistinct⟩
    exact ⟨⟨summary?, names, functions⟩, ⟨hsummary, hnames, hlength, hfunctions, hdistinct⟩,
      by simp [Listing.sections], by simp [Listing.value, Function.comp_def]⟩

end FixedForm

end Binary

namespace Profile

open Binary Reader

theorem hasMagic_of_ofBinary {bytes : List UInt8} {p : Profile} (h : ofBinary bytes = .ok p) :
    hasMagic bytes = true := by
  cases hmagic : hasMagic bytes with
  | true => rfl
  | false =>
    have hheader : readHeader (.ofBytes bytes)
        = .error { problem := .badMagic, offset := 0 } := by
      rw [readHeader, bind_of_ok (run_get _), Span.ofBytes, hmagic, if_neg Bool.false_ne_true]
      rfl
    rw [ofBinary, hheader] at h
    cases h

theorem ofBytes_of_ofBinary {bytes : List UInt8} {p : Profile} (h : ofBinary bytes = .ok p) :
    ofBytes bytes = .ok p := by
  rw [ofBytes, if_pos (hasMagic_of_ofBinary h), h]

/-- What is read of a version is its number and the sections in its layout. -/
theorem readVersioned_eq_ok {span rest : Span} {p : Profile} {v : Version} :
    readVersioned span = .ok (p, rest) ∧ p.format = .binary v ↔
      ∃ middle content, littleEndian 8 span = .ok (v.number, middle) ∧
        v.layout.readSections middle = .ok (content, rest) ∧
        p = { format := .binary v, store := content.1, summary? := content.2 } := by
  constructor
  · rintro ⟨h, hformat⟩
    rcases bind_eq_ok.1 h with ⟨number, middle, hnumber, h'⟩
    cases hv : Version.ofNumber? number with
    | none =>
      rw [hv] at h'
      cases h'
    | some u =>
      rw [hv] at h'
      rcases bind_eq_ok.1 h' with ⟨content, rest', hsections, hret⟩
      cases hret
      cases hformat
      rw [Version.ofNumber?_eq_some_iff] at hv
      exact ⟨middle, content, by rw [← hv, hnumber], hsections, rfl⟩
  · rintro ⟨middle, content, hnumber, hsections, rfl⟩
    refine ⟨?_, rfl⟩
    rw [readVersioned, bind_of_ok hnumber, Version.ofNumber?_eq_some_iff.2 rfl]
    exact bind_of_ok hsections

theorem ofBinary_eq_ok_iff (form : FixedForm) {bytes : List UInt8} {p : Profile} :
    (ofBinary bytes = .ok p ∧ p.format = .binary form.version) ↔
      ∃ x : Listing, x.WellFormed form ∧ bytes = x.bytes form ∧ p = x.value form := by
  constructor
  · rintro ⟨hread, hformat⟩
    obtain ⟨tail, rest, rfl, hversioned, hrest⟩ :=
      versioned_of_ofBytes (ofBytes_of_ofBinary hread) hformat
    rcases readVersioned_eq_ok.1 ⟨hversioned, hformat⟩ with
      ⟨middle, content, hnumber, hsections, rfl⟩
    rcases (accepts_littleEndian 8).taken _ _ _ hnumber with ⟨number, -, rfl, htail⟩
    rcases form.accepts_readSections.taken _ _ _ hsections with ⟨x, hx, rfl, hmiddle⟩
    refine ⟨x, hx, ?_, rfl⟩
    simp only [hrest, List.append_nil] at hmiddle
    simp only [hmiddle] at htail
    unfold Listing.bytes
    rw [List.append_assoc, ← htail]
  · rintro ⟨x, hx, rfl, rfl⟩
    have hfits : form.version.number < LittleEndian.values 8 := by cases form <;> decide
    have hnumber := (accepts_littleEndian 8).takes _ hfits 8 (x.sections form)
    have hsections := form.accepts_readSections.takes x hx
      (8 + (LittleEndian.encode 8 form.version.number).length) []
    rw [List.append_nil] at hsections
    obtain ⟨hversioned, hformat⟩ := readVersioned_eq_ok.2 ⟨_, _, hnumber, hsections, rfl⟩
    refine ⟨?_, rfl⟩
    unfold Listing.bytes
    rw [List.append_assoc, ← ofBytes_append, ofBytes_of_versioned hversioned, if_pos rfl]
    rfl

/-- In both forms of fixed width, bytes are read as a profile exactly if they are those of a tree of
lists that is well formed, and the profile holds what is in the tree and nothing else. -/
theorem fixed_profile_iff_listing (form : FixedForm) (bytes : List UInt8) (p : Profile) :
    (ofBinary bytes = .ok p ∧ p.format = .binary form.version) ↔
      ∃ x : Listing, x.WellFormed form ∧ bytes = x.bytes form ∧ x.HeldAs form p := by
  rw [ofBinary_eq_ok_iff]
  constructor
  · rintro ⟨x, hx, hbytes, hp⟩
    exact ⟨x, hx, hbytes, (Listing.heldAs_iff hx).2 hp⟩
  · rintro ⟨x, hx, hbytes, hheld⟩
    exact ⟨x, hx, hbytes, (Listing.heldAs_iff hx).1 hheld⟩

end Profile

end SamplingProfile
