-- The lines of the text of a store, and the names that can stand in them. A name that a line can
-- hold leaves the line one line, with nothing lost at its ends.
import SamplingProfile.Proofs.Bytes.Utf8
import SamplingProfile.Proofs.Store.NameRules
import SamplingProfile.Proofs.Text.Lines
import SamplingProfile.Proofs.Text.Tokens

namespace SamplingProfile

namespace Text

/-! ## Names that a text can hold -/

/-- A name that can begin a line of its own: it has no newline, no blank is in front, and it does
not pass for a comment behind white space. -/
def IsFunctionName (name : String) : Prop :=
  newline ∉ encodeText name ∧ (encodeText name).takeWhile isBlank = [] ∧
    ((encodeText name).dropWhile isSpace).head? ≠ some 0x23

/-- A name that can follow a location: it has no newline, no blank is in front, and it does not
pass for a count with targets behind it. -/
def IsCalleeName (name : String) : Prop :=
  newline ∉ encodeText name ∧ (encodeText name).takeWhile isBlank = [] ∧
    ¬ BeginsAsCount (encodeText name)

/-- A name that can stand among others: it has no newline and no blank. -/
def IsTargetName (name : String) : Prop :=
  newline ∉ encodeText name ∧ ∀ b ∈ encodeText name, isBlank b = false

/-- A name that can begin a line below the first: it has no newline, no blank is in front, and it
is no comment. Further down, white space that is no blank hides nothing behind it. -/
def BeginsLine (name : String) : Prop :=
  newline ∉ encodeText name ∧ (encodeText name).takeWhile isBlank = [] ∧
    (encodeText name).head? ≠ some 0x23

instance (name : String) : Decidable (IsFunctionName name) :=
  inferInstanceAs (Decidable (_ ∧ _ ∧ _))

instance (name : String) : Decidable (BeginsLine name) :=
  inferInstanceAs (Decidable (_ ∧ _ ∧ _))

instance (name : String) : Decidable (IsCalleeName name) :=
  inferInstanceAs (Decidable (_ ∧ _ ∧ _))

instance (name : String) : Decidable (IsTargetName name) :=
  inferInstanceAs (Decidable (_ ∧ _))

end Text

open Text

/-- A text can hold the names of the functions called from a node. -/
def Body.HasTextNames (b : Body) : Prop :=
  ∀ sample ∈ b.samples.entries, ∀ t ∈ sample.2.targets.entries, IsTargetName t.1

instance (b : Body) : Decidable b.HasTextNames :=
  inferInstanceAs (Decidable (∀ sample ∈ b.samples.entries, ∀ t ∈ _, IsTargetName _))

/-- A text can hold the names of callees, at every depth. -/
def Forest.HasTextNames : Forest → Prop
  | nil => True
  | cons site body inner rest =>
    IsCalleeName site.callee ∧ body.HasTextNames ∧ inner.HasTextNames ∧ rest.HasTextNames

instance Forest.decidableHasTextNames : (f : Forest) → Decidable f.HasTextNames
  | nil => inferInstanceAs (Decidable True)
  | cons site body inner rest =>
    have := inner.decidableHasTextNames
    have := rest.decidableHasTextNames
    inferInstanceAs (Decidable (IsCalleeName site.callee ∧ body.HasTextNames ∧ _ ∧ _))

/-- A text can hold the names below a function. -/
def FunctionProfile.HasTextNamesBelow (f : FunctionProfile) : Prop :=
  f.toBody.HasTextNames ∧ f.callees.forest.HasTextNames

instance (f : FunctionProfile) : Decidable f.HasTextNamesBelow :=
  inferInstanceAs (Decidable (_ ∧ _))

/-- A text can hold the name of a function and those below it. -/
def FunctionProfile.HasTextNames (f : FunctionProfile) : Prop :=
  IsFunctionName f.name ∧ f.toBody.HasTextNames ∧ f.callees.forest.HasTextNames

instance (f : FunctionProfile) : Decidable f.HasTextNames :=
  inferInstanceAs (Decidable (_ ∧ _ ∧ _))

/-- A text can hold all names of a store that it has a place for. -/
def Store.HasTextNames (s : Store) : Prop := ∀ f ∈ s.toList, f.HasTextNames

instance (s : Store) : Decidable s.HasTextNames :=
  inferInstanceAs (Decidable (∀ f ∈ s.toList, f.HasTextNames))

/-- All names stay in the text where they are put: every function begins a line, and the first one
is not taken for a part of the header. -/
def Store.FitsText (s : Store) : Prop :=
  (∀ f ∈ s.toList, BeginsLine f.name ∧ f.HasTextNamesBelow) ∧
    ∀ f ∈ s.toList.head?, ((encodeText f.name).dropWhile isSpace).head? ≠ some 0x23

instance (s : Store) : Decidable s.FitsText :=
  inferInstanceAs (Decidable ((∀ f ∈ s.toList, _ ∧ _) ∧ ∀ f ∈ s.toList.head?, _ ≠ _))

theorem Text.IsFunctionName.beginsLine {name : String} (h : IsFunctionName name) :
    BeginsLine name := by
  obtain ⟨hnewline, hblank, hhash⟩ := h
  refine ⟨hnewline, hblank, fun hhead => hhash ?_⟩
  obtain ⟨rest, hname⟩ := List.head?_eq_some_iff.1 hhead
  rw [hname]
  rfl

theorem Store.HasTextNames.fitsText {s : Store} (h : s.HasTextNames) : s.FitsText := by
  refine ⟨fun f hf => ⟨(h f hf).1.beginsLine, (h f hf).2⟩, fun f hf => ?_⟩
  exact (h f (List.mem_of_head? hf)).1.2.2

/-! ## The same rules at every place -/

theorem Forest.hasTextNames_iff {f : Forest} :
    f.HasTextNames ↔ f.NamesObey IsCalleeName IsTargetName := by
  induction f with
  | nil => exact Iff.rfl
  | cons site body inner rest ih ih' =>
    rw [HasTextNames, NamesObey, ih, ih']
    exact Iff.rfl

theorem FunctionProfile.hasTextNamesBelow_iff {f : FunctionProfile} :
    f.HasTextNamesBelow ↔ f.NamesObey IsCalleeName IsTargetName :=
  and_congr_right' Forest.hasTextNames_iff

theorem Store.hasTextNames_iff {s : Store} :
    s.HasTextNames ↔ s.NamesObey IsFunctionName IsCalleeName IsTargetName := by
  simp only [namesObey_iff_trees, ← FunctionProfile.hasTextNamesBelow_iff]
  exact Iff.rfl

theorem Store.fitsText_iff {s : Store} :
    s.FitsText ↔ s.NamesObey BeginsLine IsCalleeName IsTargetName ∧
      ∀ f ∈ s.toList.head?, ((encodeText f.name).dropWhile isSpace).head? ≠ some 0x23 := by
  simp only [namesObey_iff_trees, ← FunctionProfile.hasTextNamesBelow_iff]
  exact Iff.rfl

namespace Text

/-! ## The lines of a text -/

/-- The lines of the locations of a node. -/
def bodyLines (indent : Nat) (b : Body) : List (Nat × List UInt8) :=
  b.samples.entries.map fun sample => (indent, sampleText sample)

/-- The lines of callees, each followed by the lines of its own body. -/
def forestLines (indent : Nat) : Forest → List (Nat × List UInt8)
  | .nil => []
  | .cons site body inner rest =>
    (indent, callsiteText site (inner.totalWith body))
      :: (bodyLines (indent + 1) body ++ forestLines (indent + 1) inner ++ forestLines indent rest)

/-- What stands in the line of a function. -/
def functionLine (f : FunctionProfile) : List UInt8 :=
  encodeText f.name ++ 0x3a :: Decimal.encode f.totalCount.toNat
    ++ 0x3a :: Decimal.encode f.entryCount.toNat

/-- The lines of a function. -/
def functionLines (f : FunctionProfile) : List (Nat × List UInt8) :=
  (0, functionLine f) :: (bodyLines 1 f.toBody ++ forestLines 1 f.callees.forest)

theorem linesText_append (ls ls' : List (Nat × List UInt8)) :
    linesText (ls ++ ls') = linesText ls ++ linesText ls' := List.flatMap_append

theorem linesText_bodyLines (indent : Nat) (b : Body) :
    linesText (bodyLines indent b) = bodyText indent b := by
  rw [linesText, bodyLines, List.flatMap_map]
  rfl

theorem linesText_forestLines (indent : Nat) (f : Forest) :
    linesText (forestLines indent f) = forestText indent f := by
  induction f generalizing indent with
  | nil => rfl
  | cons site body inner rest ih ih' =>
    rw [forestLines, forestText, linesText, List.flatMap_cons]
    show lineText _ _ ++ linesText _ = _
    rw [linesText_append, linesText_append, linesText_bodyLines, ih, ih', List.append_assoc,
      List.append_assoc, List.append_assoc]

/-- The text of a store is made of the lines of its functions. -/
theorem linesText_functions (fs : List FunctionProfile) :
    linesText (fs.flatMap functionLines) = fs.flatMap functionText := by
  induction fs with
  | nil => rfl
  | cons f fs ih =>
    rw [List.flatMap_cons, linesText_append, ih, List.flatMap_cons]
    congr 1
    rw [functionLines, functionText, linesText, List.flatMap_cons]
    show lineText _ _ ++ linesText _ = _
    rw [linesText_append, linesText_bodyLines, linesText_forestLines, List.append_assoc]
    rfl

/-! ## Each line stays whole -/

theorem newline_notMem_encode (n : Nat) : newline ∉ Decimal.encode n := by
  intro h
  cases Decimal.isDigit_encode n _ h

theorem back_encode (front : List UInt8) (n : Nat) :
    (front ++ Decimal.encode n).getLast? ≠ some 0x0d := by
  intro h
  obtain ⟨b, tail, hb⟩ := List.exists_cons_of_ne_nil (Decimal.encode_ne_nil n)
  rw [hb, List.getLast?_append, List.getLast?_cons, Option.some_or, ← List.getLast?_cons,
    ← hb] at h
  cases Decimal.isDigit_encode n _ (List.mem_of_getLast? h)

theorem newline_notMem_nameCountText {name : String} (h : newline ∉ encodeText name)
    (count : Count) : newline ∉ nameCountText name count := by
  rw [nameCountText, List.mem_append, List.mem_cons]
  rintro (hname | hcolon | hcount)
  · exact h hname
  · cases hcolon
  · exact newline_notMem_encode _ hcount

theorem newline_notMem_locationText (l : Location) : newline ∉ locationText l := by
  unfold locationText
  split
  · exact newline_notMem_encode _
  · rw [List.mem_append, List.mem_cons]
    rintro (hline | hdot | hdiscriminator)
    · exact newline_notMem_encode _ hline
    · cases hdot
    · exact newline_notMem_encode _ hdiscriminator

/-- A line that begins with a location and ends with a number stays whole. -/
theorem isContent_located (l : Location) {middle : List UInt8} (hmiddle : newline ∉ middle)
    (n : Nat) : IsContent (locationText l ++ (middle ++ Decimal.encode n)) := by
  refine ⟨?_, ?_, ?_⟩
  · rw [List.mem_append, List.mem_append]
    rintro (hl | hm | hn)
    · exact newline_notMem_locationText l hl
    · exact hmiddle hm
    · exact newline_notMem_encode n hn
  · obtain ⟨b, tail, hb⟩ := List.exists_cons_of_ne_nil (Decimal.encode_ne_nil l.line.toNat)
    have hdigit := Decimal.isDigit_encode l.line.toNat b (hb ▸ List.mem_cons_self)
    have hhash : b ≠ 0x23 := by
      rintro rfl
      cases hdigit
    have hfront : ∃ rest, locationText l = b :: rest := by
      unfold locationText
      split
      · exact ⟨tail, hb⟩
      · exact ⟨tail ++ _, by rw [hb, List.cons_append]⟩
    obtain ⟨rest, hrest⟩ := hfront
    exact ⟨b, _, by rw [hrest, List.cons_append], isBlank_of_isDigit hdigit, hhash⟩
  · rw [← List.append_assoc]
    exact back_encode _ n

theorem newline_notMem_targets {targets : List (String × Count)}
    (h : ∀ t ∈ targets, IsTargetName t.1) :
    newline ∉ targets.flatMap fun t => 0x20 :: nameCountText t.1 t.2 := by
  intro hmem
  obtain ⟨t, ht, hin⟩ := List.mem_flatMap.1 hmem
  rcases List.mem_cons.1 hin with hspace | hin
  · cases hspace
  · exact newline_notMem_nameCountText (h t ht).1 t.2 hin

theorem isContent_sampleText {sample : Location × Tally}
    (h : ∀ t ∈ sample.2.targets.entries, IsTargetName t.1) : IsContent (sampleText sample) := by
  -- the number at the end of the line is the count, or that of the last target
  rcases List.eq_nil_or_concat sample.2.targets.entries with hnil | ⟨init, t, hconcat⟩
  · have htext : sampleText sample
        = locationText sample.1 ++ ([0x3a, 0x20] ++ Decimal.encode sample.2.count.toNat) := by
      simp [sampleText, hnil]
    rw [htext]
    exact isContent_located sample.1 (by decide) _
  · rw [List.concat_eq_append] at hconcat
    rw [hconcat] at h
    have htext : sampleText sample = locationText sample.1
        ++ ([0x3a, 0x20] ++ Decimal.encode sample.2.count.toNat
          ++ (init.flatMap fun t => 0x20 :: nameCountText t.1 t.2)
          ++ (0x20 :: encodeText t.1 ++ [0x3a]) ++ Decimal.encode t.2.toNat) := by
      simp [sampleText, hconcat, nameCountText]
    rw [htext]
    apply isContent_located
    have hcount := newline_notMem_encode sample.2.count.toNat
    have hinit := newline_notMem_targets fun t ht => h t (List.mem_append_left _ ht)
    have hlast := (h t (by simp)).1
    simp only [newline] at hcount hinit hlast ⊢
    simp [hcount, hinit, hlast]

theorem isContent_callsiteText {site : Callsite} (h : newline ∉ encodeText site.callee)
    (total : Count) : IsContent (callsiteText site total) := by
  have htext : callsiteText site total = locationText site.location
      ++ ([0x3a, 0x20] ++ encodeText site.callee ++ [0x3a] ++ Decimal.encode total.toNat) := by
    simp [callsiteText, nameCountText]
  rw [htext]
  apply isContent_located
  simp [newline] at h ⊢
  exact h

/-- White space in front of the line of a function, and a hash behind it, are those of its name. -/
theorem isSilent_functionLine {f : FunctionProfile} :
    isSilent ((functionLine f).dropWhile isSpace) = true ↔
      ((encodeText f.name).dropWhile isSpace).head? = some 0x23 := by
  rw [functionLine, List.append_assoc, List.cons_append, List.dropWhile_append]
  cases hname : (encodeText f.name).dropWhile isSpace with
  | nil => exact ⟨(nomatch ·), (nomatch ·)⟩
  | cons b rest => simp [isSilent]

theorem isContent_functionLine {f : FunctionProfile} (h : BeginsLine f.name) :
    IsContent (functionLine f) := by
  obtain ⟨hnewline, hblank, hhash⟩ := h
  have hback := back_encode (encodeText f.name ++ 0x3a :: Decimal.encode f.totalCount.toNat
    ++ [0x3a]) f.entryCount.toNat
  rw [List.append_assoc, List.singleton_append] at hback
  refine ⟨?_, ?_, hback⟩
  · rw [functionLine, List.mem_append, List.mem_append, List.mem_cons, List.mem_cons]
    rintro ((hname | hcolon | htotal) | hcolon | hentries)
    · exact hnewline hname
    · cases hcolon
    · exact newline_notMem_encode _ htotal
    · cases hcolon
    · exact newline_notMem_encode _ hentries
  · cases hname : encodeText f.name with
    | nil => exact ⟨0x3a, _, by rw [functionLine, hname]; rfl, rfl, by decide⟩
    | cons b rest =>
      rw [hname] at hblank hhash
      refine ⟨b, _, by rw [functionLine, hname]; rfl, ?_, ?_⟩
      · cases hb : isBlank b with
        | false => rfl
        | true =>
          rw [List.takeWhile_cons, hb] at hblank
          cases hblank
      · rintro rfl
        exact hhash rfl

theorem isContent_of_mem_bodyLines {b : Body} (h : b.HasTextNames) {indent : Nat} :
    ∀ l ∈ bodyLines indent b, IsContent l.2 := by
  intro l hl
  obtain ⟨sample, hsample, rfl⟩ := List.mem_map.1 hl
  exact isContent_sampleText (h sample hsample)

theorem isContent_of_mem_forestLines {f : Forest} (h : f.HasTextNames) {indent : Nat} :
    ∀ l ∈ forestLines indent f, IsContent l.2 := by
  induction f generalizing indent with
  | nil => exact fun l hl => nomatch hl
  | cons site body inner rest ih ih' =>
    obtain ⟨hcallee, hbody, hinner, hrest⟩ := h
    intro l hl
    rw [forestLines, List.mem_cons, List.mem_append, List.mem_append] at hl
    rcases hl with rfl | (hl | hl) | hl
    · exact isContent_callsiteText hcallee.1 _
    · exact isContent_of_mem_bodyLines hbody l hl
    · exact ih hinner l hl
    · exact ih' hrest l hl

/-- The lines below that of a function stay whole. -/
theorem isContent_of_mem_linesBelow {f : FunctionProfile} (h : f.HasTextNamesBelow) :
    ∀ l ∈ bodyLines 1 f.toBody ++ forestLines 1 f.callees.forest, IsContent l.2 := by
  intro l hl
  rcases List.mem_append.1 hl with hl | hl
  · exact isContent_of_mem_bodyLines h.1 l hl
  · exact isContent_of_mem_forestLines h.2 l hl

/-- Every line of the text of some functions stays whole. -/
theorem isContent_of_mem_lines {fs : List FunctionProfile}
    (h : ∀ f ∈ fs, BeginsLine f.name ∧ f.HasTextNamesBelow) :
    ∀ l ∈ fs.flatMap functionLines, IsContent l.2 := by
  intro l hl
  obtain ⟨f, hf, hl⟩ := List.mem_flatMap.1 hl
  obtain ⟨hname, hbelow⟩ := h f hf
  rw [functionLines, List.mem_cons] at hl
  rcases hl with rfl | hl
  · exact isContent_functionLine hname
  · exact isContent_of_mem_linesBelow hbelow l hl

/-! ## The whole is a text -/

theorem isText_encode (n : Nat) : IsText (Decimal.encode n) := by
  apply isText_of_ascii
  intro b hb
  have hdigit := Decimal.isDigit_encode n b hb
  rw [Decimal.isDigit, decide_eq_true_iff] at hdigit
  exact Nat.lt_of_le_of_lt (UInt8.le_iff_toNat_le.1 hdigit.2) (by decide)

theorem isText_locationText (l : Location) : IsText (locationText l) := by
  unfold locationText
  split
  · exact isText_encode _
  · have hdot : IsText [0x2e] := isText_of_ascii (by simp)
    exact (isText_encode _).append (hdot.append (isText_encode _))

theorem isText_nameCountText (name : String) (count : Count) :
    IsText (nameCountText name count) := by
  have hcolon : IsText [0x3a] := isText_of_ascii (by simp)
  exact (isText_encodeText name).append (hcolon.append (isText_encode _))

theorem isText_sampleText (sample : Location × Tally) : IsText (sampleText sample) := by
  have hcolon : IsText [0x3a, 0x20] := isText_of_ascii (by simp)
  have hspace : IsText [0x20] := isText_of_ascii (by simp)
  refine (((isText_locationText _).append hcolon).append (isText_encode _)).append ?_
  exact isText_flatMap fun t _ => hspace.append (isText_nameCountText t.1 t.2)

theorem isText_callsiteText (site : Callsite) (total : Count) :
    IsText (callsiteText site total) := by
  have hcolon : IsText [0x3a, 0x20] := isText_of_ascii (by simp)
  exact ((isText_locationText _).append hcolon).append (isText_nameCountText _ _)

theorem isText_functionLine (f : FunctionProfile) : IsText (functionLine f) := by
  have hcolon : IsText [0x3a] := isText_of_ascii (by simp)
  exact (isText_nameCountText f.name f.totalCount).append (hcolon.append (isText_encode _))

theorem isText_lineText (indent : Nat) {content : List UInt8} (h : IsText content) :
    IsText (lineText indent content) := by
  have hspaces : IsText (List.replicate indent 0x20) := by
    apply isText_of_ascii
    intro b hb
    rw [List.eq_of_mem_replicate hb]
    decide
  have hnewline : IsText [newline] := isText_of_ascii (by simp [newline])
  exact (hspaces.append h).append hnewline

theorem isText_bodyText (indent : Nat) (b : Body) : IsText (bodyText indent b) :=
  isText_flatMap fun sample _ => isText_lineText indent (isText_sampleText sample)

theorem isText_forestText (indent : Nat) (f : Forest) : IsText (forestText indent f) := by
  induction f generalizing indent with
  | nil => exact ⟨"", rfl⟩
  | cons site body inner rest ih ih' =>
    have hline := isText_lineText indent (isText_callsiteText site (inner.totalWith body))
    exact ((hline.append (isText_bodyText _ body)).append (ih _)).append (ih' _)

theorem isText_functionText (f : FunctionProfile) : IsText (functionText f) :=
  ((isText_lineText 0 (isText_functionLine f)).append (isText_bodyText 1 _)).append
    (isText_forestText 1 _)

end Text

end SamplingProfile
