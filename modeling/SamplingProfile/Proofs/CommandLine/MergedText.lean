-- What becomes of the text that a merge writes. When all names of the inputs are identifiers
-- nothing in the text passes for anything else, and it is read as what the inputs were joined to;
-- but of a store without functions the text is empty, and an empty file is no profile.
import SamplingProfile.Proofs.CommandLine.MergedFile
import SamplingProfile.Proofs.Text.Kept

namespace SamplingProfile

namespace Text

/-! ## Identifiers -/

/-- A character of ASCII that a word is made of. -/
def IsWordChar (c : Char) : Prop := c.isAlphanum ∨ c = '_'

/-- A name of ASCII letters, digits and underscores with no digit in front. -/
def IsIdentifier (name : String) : Prop :=
  (∀ c ∈ name.toList, IsWordChar c) ∧ name.toList.head?.any (fun c => c.isAlpha || c == '_') = true

instance (c : Char) : Decidable (IsWordChar c) := inferInstanceAs (Decidable (_ ∨ _))

instance (name : String) : Decidable (IsIdentifier name) :=
  @instDecidableAnd _ _ (List.decidableBAll _ _) inferInstance

theorem IsWordChar.lt {c : Char} (h : IsWordChar c) : c.toNat < 0x80 := by
  have below {last : Char} (hle : c.val ≤ last.val) (hlast : last.toNat < 0x80) :
      c.toNat < 0x80 := Nat.lt_of_le_of_lt hle hlast
  rcases h with halphanum | rfl
  · obtain halpha | hdigit := Bool.or_eq_true_iff.1 halphanum
    · obtain hupper | hlower := Bool.or_eq_true_iff.1 halpha
      · exact below (of_decide_eq_true hupper).2 (by decide)
      · exact below (of_decide_eq_true (Bool.and_eq_true_iff.1 hlower).2) (by decide)
    · exact below (of_decide_eq_true (Bool.and_eq_true_iff.1 hdigit).2) (by decide)
  · decide

/-- Such a character is one byte, which is neither white space nor a hash, and no digit if an
identifier may begin with it. -/
theorem IsWordChar.utf8EncodeChar {c : Char} (h : IsWordChar c) :
    ∃ b, String.utf8EncodeChar c = [b] ∧ isSpace b = false ∧ b ≠ 0x23 ∧
      ((c.isAlpha || c == '_') = true → Decimal.isDigit b = false) := by
  have hall : ∀ n < 0x80, IsWordChar (Char.ofNat n) → ∃ b ∈ [UInt8.ofNat n],
      String.utf8EncodeChar (Char.ofNat n) = [b] ∧ isSpace b = false ∧ b ≠ 0x23 ∧
        (((Char.ofNat n).isAlpha || Char.ofNat n == '_') = true → Decimal.isDigit b = false) := by
    decide +kernel
  have hchar := hall c.toNat h.lt
  rw [Char.ofNat_toNat] at hchar
  obtain ⟨b, -, hb⟩ := hchar h
  exact ⟨b, hb⟩

theorem IsIdentifier.bytes {name : String} (h : IsIdentifier name) :
    ∀ b ∈ encodeText name, isSpace b = false ∧ b ≠ 0x23 := by
  intro b hb
  rw [encodeText_eq_flatMap, List.mem_flatMap] at hb
  obtain ⟨c, hc, hb⟩ := hb
  obtain ⟨own, hown, hspace, hhash, -⟩ := (h.1 c hc).utf8EncodeChar
  rw [hown, List.mem_singleton] at hb
  rw [hb]
  exact ⟨hspace, hhash⟩

/-- An identifier begins with a byte that is no digit. -/
theorem IsIdentifier.front {name : String} (h : IsIdentifier name) :
    ∃ b rest, encodeText name = b :: rest ∧ Decimal.isDigit b = false := by
  obtain ⟨hword, hfront⟩ := h
  obtain ⟨c, hc, hfront⟩ := (Option.any_eq_true _ _).1 hfront
  obtain ⟨cs, hname⟩ := List.head?_eq_some_iff.1 hc
  obtain ⟨b, hb, -, -, hdigit⟩ := (hword c (hname ▸ List.mem_cons_self)).utf8EncodeChar
  refine ⟨b, cs.flatMap String.utf8EncodeChar, ?_, hdigit hfront⟩
  rw [encodeText_eq_flatMap, hname, List.flatMap_cons, hb]
  rfl

theorem newline_notMem_of_isSpace {bytes : List UInt8} (h : ∀ b ∈ bytes, isSpace b = false) :
    newline ∉ bytes := by
  intro hmem
  cases h newline hmem

theorem IsIdentifier.isTargetName {name : String} (h : IsIdentifier name) : IsTargetName name :=
  ⟨newline_notMem_of_isSpace fun b hb => (h.bytes b hb).1,
    fun b hb => isBlank_of_isSpace (h.bytes b hb).1⟩

theorem IsIdentifier.isFunctionName {name : String} (h : IsIdentifier name) :
    IsFunctionName name := by
  obtain ⟨hnewline, hblank⟩ := h.isTargetName
  obtain ⟨b, rest, hname, -⟩ := h.front
  obtain ⟨hspace, hhash⟩ := h.bytes b (hname ▸ List.mem_cons_self)
  have hb := hblank b (hname ▸ List.mem_cons_self)
  refine ⟨hnewline, ?_, ?_⟩
  · rw [hname, List.takeWhile_cons, hb]
    rfl
  · rw [hname, List.dropWhile_cons, hspace]
    simpa using hhash

theorem IsIdentifier.isCalleeName {name : String} (h : IsIdentifier name) : IsCalleeName name := by
  obtain ⟨b, rest, hname, hdigit⟩ := h.front
  refine ⟨h.isFunctionName.1, h.isFunctionName.2.1, fun hcount => hcount.1 ?_⟩
  rw [hname, List.takeWhile_cons, hdigit]
  rfl

/-- A store whose names are identifiers fits a text. -/
theorem fitsText_of_identifiers {s : Store}
    (h : s.NamesObey IsIdentifier IsIdentifier IsIdentifier) : s.FitsText := by
  have hnames := h.mono (fun _ h => h.isFunctionName) (fun _ h => h.isCalleeName)
    (fun _ h => h.isTargetName)
  exact (Store.hasTextNames_iff.2 hnames).fitsText

end Text

/-! ## Stores without functions -/

namespace Store

theorem eq_empty_of_isEmpty {s : Store} (h : s.isEmpty = true) : s = ∅ := by
  have hentries : s.functions.entries = [] := List.isEmpty_iff.1 h
  apply ext
  intro name
  rw [get?, SortedMap.get?, hentries]
  rfl

/-- A store with a function has a place. -/
theorem isEmpty_iff {s : Store} : s.isEmpty = true ↔ ∀ place, s.countAt? place = none := by
  constructor
  · intro h place
    rw [eq_empty_of_isEmpty h, countAt?_empty]
  · intro h
    rw [← Bool.not_eq_false]
    intro hne
    obtain ⟨f, fs, hlist⟩ := toList_eq_cons hne
    have hget : s.get? f.name = some f := mem_toList_iff.1 (hlist ▸ List.mem_cons_self)
    have hentry := h (.entry f.name [])
    rw [countAt?, nodeAt?, hget] at hentry
    cases hentry

/-- What stores are merged to has functions if one of them has. -/
theorem isEmpty_mergeAll (mode : Mode) {inputs : List (Count × Store)} :
    (mergeAll mode inputs).isEmpty = true ↔ ∀ input ∈ inputs, input.2.isEmpty = true := by
  have hplace : ∀ place, (mergeAll mode inputs).countAt? place = none ↔
      ∀ input ∈ inputs, input.2.countAt? place = none := by
    intro place
    have hsome := (gathered_countAt? mode inputs place).isSome_iff
    rw [CountPlace.parts_ne_nil_iff] at hsome
    rw [← Option.not_isSome_iff_eq_none, hsome]
    simp
  simp only [isEmpty_iff, hplace]
  exact ⟨fun h input hinput place => h place input hinput,
    fun h place input hinput => h input hinput place⟩

end Store

/-! ## The merge -/

namespace Folder

variable {d : Folder} {input : Count × String}

theorem Gives.unique {taken taken' : Count × Store} (h : d.Gives input taken)
    (h' : d.Gives input taken') : taken = taken' := by
  obtain ⟨hweight, p, hp, hstore⟩ := h
  obtain ⟨hweight', p', hp', hstore'⟩ := h'
  rw [hp] at hp'
  cases hp'
  exact Prod.ext (hweight.trans hweight'.symm) (hstore.symm.trans hstore')

theorem gives_of_readProfile {s : Store}
    (h : (d.readProfile input.2).toOption.map Profile.store = some s) :
    d.Gives input (input.1, s) := by
  cases hp : d.readProfile input.2 with
  | error e =>
    rw [hp] at h
    cases h
  | ok p =>
    rw [hp] at h
    exact ⟨rfl, p, hp, Option.some.inj h⟩

end Folder

namespace CommandLine

open Text

variable {d d' : Folder} {o : MergeOptions} {deflate : List UInt8 → List UInt8}
  {taken : List (Count × Store)}

/-- A merge to a text leaves the text of what the inputs were joined to. -/
theorem read_of_merge_text (htext : o.text = true) (htaken : List.Forall₂ d.Gives o.inputs taken)
    (hrun : (o.run folderAccess deflate).run.run d = (.ok (), d')) :
    d'.read o.output = .ok
      (linesText ((Store.mergeAll o.mode taken).toList.flatMap Text.functionLines)) := by
  obtain ⟨-, taken', output, htaken', hmade, hwritten⟩ := run_merge_eq_ok_iff.1 hrun
  obtain rfl : taken = taken' :=
    List.right_unique_forall₂' (fun _ _ _ h h' => h.unique h') htaken htaken'
  rw [MergeOptions.write, htext, if_pos rfl] at hmade
  cases hmade
  have hdeep := (Folder.legal_of_gives htaken o.mode).tooDeep?_eq_none
  rw [Folder.read_of_writeProfile hwritten, Text.write, hdeep, linesText_functions]

/-- Without functions the file is empty, and no profile. -/
theorem readProfile_of_empty (htext : o.text = true)
    (htaken : List.Forall₂ d.Gives o.inputs taken)
    (hrun : (o.run folderAccess deflate).run.run d = (.ok (), d'))
    (hempty : ∀ input ∈ taken, input.2.isEmpty = true) :
    d'.readProfile o.output = .error (.read .unrecognizedFormat) := by
  have hread := read_of_merge_text htext htaken hrun
  rw [Store.eq_empty_of_isEmpty ((Store.isEmpty_mergeAll o.mode).2 hempty)] at hread
  rw [Folder.readProfile, hread]
  rfl

/-- Where all names are identifiers, the text that a merge leaves is read as what the inputs were
joined to, if one of them has a function: the names are the same, and so is any summary. If none of
them has a function the file is empty, and its form is not recognized. -/
theorem merged_text_is_read (htext : o.text = true)
    (htaken : List.Forall₂ d.Gives o.inputs taken)
    (hnames : ∀ input ∈ taken, input.2.NamesObey IsIdentifier IsIdentifier IsIdentifier)
    (hrun : (o.run folderAccess deflate).run.run d = (.ok (), d')) :
    ((∃ input ∈ taken, input.2.isEmpty = false) → ∃ p, d'.readProfile o.output = .ok p ∧
      p.store = (Store.mergeAll o.mode taken).plain ∧
      p.store.names = (Store.mergeAll o.mode taken).names ∧
      ∀ cutoffs, p.store.summary cutoffs = (Store.mergeAll o.mode taken).summary cutoffs) ∧
    ((∀ input ∈ taken, input.2.isEmpty = true) →
      d'.readProfile o.output = .error (.read .unrecognizedFormat)) := by
  refine ⟨?_, readProfile_of_empty htext htaken hrun⟩
  rintro ⟨input, hinput, hfull⟩
  have hne : (Store.mergeAll o.mode taken).isEmpty = false := by
    rw [Bool.eq_false_iff]
    intro hempty
    rw [(Store.isEmpty_mergeAll o.mode).1 hempty input hinput] at hfull
    cases hfull
  have hdeep := (Folder.legal_of_gives htaken o.mode).tooDeep?_eq_none
  have hfits := fitsText_of_identifiers (Store.namesObey_mergeAll o.mode hnames)
  have hread := Folder.readProfile_of_read (read_of_merge_text htext htaken hrun)
    (Profile.ofBytes_of_fitsText hne hdeep hfits)
  exact ⟨_, hread, rfl, Store.names_plain _, Store.summary_plain _⟩

/-- A text profile with functions, and one without. -/
def plainFolder : Folder where
  files := .ofList [
    (["a"], encodeText "main:9:1\n 1: 5 f_1:2\n 2: inner:4\n  3: 4\n"),
    (["b"], encodeText "# no samples\n")]

/-- The store of the one file. -/
def fromA : Store := .ofList [{
  name := "main", entryCount := 1
  samples := .ofList
    [(.ofLine 1 0, { count := 5, instructions := 1, targets := .ofList [("f_1", 2)] })]
  callees := .ofList [(⟨.ofLine 2 0, "inner"⟩, {
    name := "inner", samples := .ofList [(.ofLine 3 0, { count := 4, instructions := 1 })] })] }]

/-- A merge of both files to a text. -/
def toText : MergeOptions :=
  { input := ["b"], weightedInput := [(3, "a")], output := "m", text := true }

/-- A merge of the file without functions to a text. -/
def nothingToText : MergeOptions := { input := ["b"], output := "m", text := true }

/-- The merge of both files is read again. -/
theorem toText_is_read :
    ∃ d' p, (toText.run folderAccess).run.run plainFolder = (.ok (), d') ∧
      d'.readProfile "m" = .ok p ∧ p.store.names = ["main"] ∧
      p.store.summary defaultCutoffs
        = (Store.mergeAll .sum [(1, ∅), (3, fromA)]).summary defaultCutoffs := by
  have hrun : (toText.run folderAccess).run.run plainFolder
      = (.ok (), ((toText.run folderAccess).run.run plainFolder).2) :=
    Prod.ext (by decide +kernel) rfl
  have htaken : List.Forall₂ plainFolder.Gives toText.inputs [(1, ∅), (3, fromA)] :=
    .cons (Folder.gives_of_readProfile (by decide +kernel))
      (.cons (Folder.gives_of_readProfile (by decide +kernel)) .nil)
  obtain ⟨hread, -⟩ := merged_text_is_read rfl htaken (by decide +kernel) hrun
  obtain ⟨p, hp, -, hnames, hsummary⟩ := hread ⟨(3, fromA), by simp, by decide +kernel⟩
  exact ⟨_, p, hrun, hp, hnames.trans (by decide +kernel), hsummary defaultCutoffs⟩

/-- The merge of the file without functions goes well, and what it leaves is no profile. -/
theorem nothingToText_is_refused :
    ∃ d', List.Forall₂ plainFolder.Gives nothingToText.inputs [(1, ∅)] ∧
      (∅ : Store).NamesObey IsIdentifier IsIdentifier IsIdentifier ∧
      (nothingToText.run folderAccess).run.run plainFolder = (.ok (), d') ∧
      d'.readProfile "m" = .error (.read .unrecognizedFormat) := by
  have hrun : (nothingToText.run folderAccess).run.run plainFolder
      = (.ok (), ((nothingToText.run folderAccess).run.run plainFolder).2) :=
    Prod.ext (by decide +kernel) rfl
  have htaken : List.Forall₂ plainFolder.Gives nothingToText.inputs [(1, ∅)] :=
    .cons (Folder.gives_of_readProfile (by decide +kernel)) .nil
  exact ⟨_, htaken, by decide +kernel, hrun, readProfile_of_empty rfl htaken hrun (by simp; rfl)⟩

end CommandLine

end SamplingProfile
