-- What a text keeps of a store, and which stores it keeps. A name that passes for another part of
-- a line is read as that part, so the store that is read is another one, or none; all other names
-- are read where they were put. Which of the two it is can be told from the names alone.
import SamplingProfile.Proofs.Text.ReadNames
import SamplingProfile.Proofs.Text.RoundTrip

namespace SamplingProfile

/-! ## The plain form at every place -/

/-- A node as a text has it, under the name that it is found by. -/
def FunctionProfile.plainAs (name : String) (entryCount : Count) (f : FunctionProfile) :
    FunctionProfile :=
  { f.toBody.plain name entryCount with callees := f.callees.plain }

theorem Forest.calleeAt?_plain {f : Forest} (h : f.Ordered) (site : Callsite) :
    f.plain.calleeAt? site (ordered_plain h)
      = (f.calleeAt? site h).map (FunctionProfile.plainAs site.callee 0) := by
  induction f with
  | nil => rfl
  | cons s body inner rest _ ih =>
    simp only [plain, calleeAt?]
    split
    · rfl
    · rename_i heq
      rw [Std.compare_eq_iff_eq.1 heq]
      rfl
    · exact ih h.2.2

theorem FunctionProfile.samples_nodeAt?_plainAs (name : String) (entryCount : Count)
    (f : FunctionProfile) (path : List Callsite) :
    ((f.plainAs name entryCount).nodeAt? path).map (·.samples)
      = (f.nodeAt? path).map fun node => node.samples.mapValues Tally.plain := by
  induction path generalizing name entryCount f with
  | nil => rfl
  | cons site path ih =>
    have hcallee : (f.plainAs name entryCount).callee? site
        = (f.callee? site).map (plainAs site.callee 0) :=
      Forest.calleeAt?_plain f.callees.ordered site
    rw [nodeAt?, nodeAt?, hcallee]
    cases f.callee? site with
    | none => rfl
    | some c => exact ih site.callee 0 c

namespace Store

theorem names_plain (s : Store) : s.plain.names = s.names := by
  simp [names, plain, SortedMap.keys, SortedMap.mapValues]

/-- Every node has its samples at the end of the path that led to it. -/
theorem samples_nodeAt?_plain (s : Store) (name : String) (path : List Callsite) :
    (s.plain.nodeAt? name path).map (·.samples)
      = (s.nodeAt? name path).map fun node => node.samples.mapValues Tally.plain := by
  have hget : s.plain.get? name = (s.get? name).map FunctionProfile.plain :=
    SortedMap.get?_mapValues s.functions FunctionProfile.plain name
  rw [nodeAt?, nodeAt?, hget]
  cases s.get? name with
  | none => rfl
  | some f => exact FunctionProfile.samples_nodeAt?_plainAs f.name f.entryCount f path

/-- Another store has the same functions, with callees at the same callsites, and all of them call
the same functions equally often; and no summary tells the one store from the other. -/
structure KeptBy (s r : Store) : Prop where
  names : r.names = s.names
  nodes : ∀ name path, (r.nodeAt? name path).isSome = (s.nodeAt? name path).isSome
  targets : ∀ name path location called,
    r.countAt? (.target name path location called) = s.countAt? (.target name path location called)
  summary : ∀ cutoffs, r.summary cutoffs = s.summary cutoffs

theorem keptBy_plain (s : Store) : s.KeptBy s.plain where
  names := s.names_plain
  nodes := fun name path => by
    have h := congrArg Option.isSome (s.samples_nodeAt?_plain name path)
    simpa using h
  targets := fun name path location called => by
    have hsamples := s.samples_nodeAt?_plain name path
    have hview : ∀ r : Store, r.tallyAt? name path location
        = ((r.nodeAt? name path).map (·.samples)).bind (·.get? location) := by
      intro r
      rw [tallyAt?]
      cases r.nodeAt? name path <;> rfl
    rw [countAt?, countAt?, hview, hview, hsamples]
    cases s.nodeAt? name path with
    | none => rfl
    | some node =>
      simp only [Option.map_some, Option.bind_some, SortedMap.get?_mapValues]
      cases node.samples.get? location <;> rfl
  summary := s.summary_plain

variable {function callee target : String → Prop}

/-- A rule that the names of a store keep to is kept by a store that it keeps. -/
theorem KeptBy.namesObey {s r : Store} (h : s.KeptBy r) (hr : r.NamesObey function callee target) :
    s.NamesObey function callee target := by
  have hnode : ∀ name path, (s.nodeAt? name path).isSome →
      function name ∧ ∀ site ∈ path, callee site.callee := by
    intro name path hs
    rw [← h.nodes] at hs
    exact hr (.entry name path) (by rwa [countAt?, Option.isSome_map])
  intro place hplace
  cases place with
  | entry name path =>
    rw [countAt?, Option.isSome_map] at hplace
    exact hnode name path hplace
  | sample name path location =>
    rw [countAt?, Option.isSome_map, tallyAt?] at hplace
    exact hnode name path (Option.isSome_of_isSome_bind hplace)
  | target name path location called =>
    rw [← h.targets] at hplace
    exact hr _ hplace

end Store

namespace Text

/-! ## What is read from a text -/

/-- Of the lines of some functions, those that are not indented are the lines of the functions
themselves. -/
theorem eq_functionLine_of_indent {fs : List FunctionProfile} {l : Nat × List UInt8}
    (hl : l ∈ fs.flatMap functionLines) (hindent : l.1 = 0) :
    ∃ f ∈ fs, l.2 = functionLine f := by
  obtain ⟨f, hf, hl⟩ := List.mem_flatMap.1 hl
  rcases List.mem_cons.1 hl with rfl | hl
  · exact ⟨f, hf, rfl⟩
  · have := lt_of_mem_nodeLines hl
    omega

/-- A function whose line passes for a part of the header is not read. -/
theorem get?_of_hidden {f : FunctionProfile} {fs : List FunctionProfile} {r : Store}
    (hnames : ∀ g ∈ f :: fs, BeginsLine g.name ∧ g.NamesObey IsCalleeName IsTargetName)
    (hdistinct : ((f :: fs).map (·.name)).Nodup)
    (hhidden : ((encodeText f.name).dropWhile isSpace).head? = some 0x23)
    (h : Text.read (linesText ((f :: fs).flatMap functionLines)) = .ok r) :
    r.get? f.name = none := by
  simp only [← FunctionProfile.hasTextNamesBelow_iff] at hnames
  let below := bodyLines 1 f.toBody ++ forestLines 1 f.callees.forest
  have hheard : (lines (skipHeader (.ofBytes (linesText ((f :: fs).flatMap functionLines))))).map
      Line.said ⊆ below ++ fs.flatMap functionLines := by
    rw [map_said_lines_skipHeader]
    exact heard_linesText_subset (isContent_of_mem_lines hnames) (isSilent_functionLine.2 hhidden)
  cases hget : r.get? f.name with
  | none => rfl
  | some g =>
    obtain ⟨-, l, hl, hindent, total, entryCount, hline⟩ := line_of_read h hget
    have hmem := hheard (List.mem_map_of_mem hl)
    -- the lines below a function are indented, so the line is one of another function
    rcases List.mem_append.1 hmem with hmem | hmem
    · have := lt_of_mem_nodeLines hmem
      rw [Line.said, hindent] at this
      omega
    · obtain ⟨other, hother, hcontent⟩ := eq_functionLine_of_indent hmem hindent
      obtain ⟨start, hl'⟩ := Line.content_of_said (l := l) (Prod.ext hindent hcontent)
      have hsaidName := readFunctionLine_text other.name other.totalCount other.entryCount start
      rw [hl'] at hline
      have hsame := hsaidName.symm.trans hline
      simp only [Except.ok.injEq, Prod.mk.injEq] at hsame
      rw [List.map_cons, List.nodup_cons, ← hsame.1] at hdistinct
      exact absurd (List.mem_map_of_mem hother) hdistinct.1

/-- A store is written as a text if its callees are not nested too deep. -/
theorem toExcept_write {s : Store} (h : s.tooDeep? = none) :
    (Text.write s).toExcept = .ok (linesText (s.toList.flatMap functionLines)) := by
  rw [linesText_functions, Text.write, h]
  rfl

theorem write_eq_ok {s : Store} {bytes : List UInt8} (h : (Text.write s).toExcept = .ok bytes) :
    s.tooDeep? = none ∧ bytes = linesText (s.toList.flatMap functionLines) := by
  rw [linesText_functions]
  unfold Text.write at h
  cases hdeep : s.tooDeep? with
  | some f =>
    rw [hdeep] at h
    cases h
  | none =>
    rw [hdeep] at h
    cases h
    exact ⟨rfl, rfl⟩

/-- A store whose text is read with the store kept fits the text. -/
theorem fitsText_of_keptBy {s r : Store}
    (hread : Text.read (linesText (s.toList.flatMap functionLines)) = .ok r)
    (hkept : s.KeptBy r) : s.FitsText := by
  have hnames := hkept.namesObey (namesObey_of_read hread)
  refine Store.fitsText_iff.2 ⟨hnames, fun f hf hhidden => ?_⟩
  obtain ⟨fs, hlist⟩ := List.head?_eq_some_iff.1 hf
  rw [Store.namesObey_iff_trees] at hnames
  have hdistinct := s.nodup_toList
  rw [hlist] at hnames hdistinct hread
  have hnone := get?_of_hidden hnames hdistinct hhidden hread
  have hsome : s.get? f.name = some f := Store.mem_toList_iff.1 (hlist ▸ List.mem_cons_self)
  have hnode := hkept.nodes f.name []
  rw [Store.nodeAt?, Store.nodeAt?, hnone, hsome] at hnode
  cases hnode

end Text

/-! ## Whole profiles -/

namespace Profile

open Text

/-- The text of a store that is not empty is read as a text. -/
theorem ofBytes_linesText {s : Store} (hne : s.isEmpty = false) :
    Profile.ofBytes (linesText (s.toList.flatMap functionLines))
      = (Profile.ofText (linesText (s.toList.flatMap functionLines))).mapError .malformed := by
  rw [linesText_functions]
  obtain ⟨text, htext⟩ : IsText (s.toList.flatMap functionText) :=
    isText_flatMap fun f _ => isText_functionText f
  have hmagic : Binary.hasMagic (s.toList.flatMap functionText) = false := by
    rw [htext]
    exact hasMagic_encodeText text
  have hnil : s.toList.flatMap functionText ≠ [] := by
    obtain ⟨f, fs, hlist⟩ := Store.toList_eq_cons hne
    simp [hlist, functionText, lineText]
  have hisText : isText (s.toList.flatMap functionText) = true := by
    rw [isText, decide_eq_true_iff]
    refine ⟨?_, hnil⟩
    rw [htext, decodeText?_encodeText]
    rfl
  rw [ofBytes, hmagic, if_neg Bool.false_ne_true, if_pos hisText]

theorem ofBytes_linesText_eq_ok_iff {s : Store} (hne : s.isEmpty = false) {p : Profile} :
    Profile.ofBytes (linesText (s.toList.flatMap functionLines)) = .ok p ↔
      ∃ r, Text.read (linesText (s.toList.flatMap functionLines)) = .ok r ∧
        p = { format := .text, store := r, summary? := none } := by
  rw [ofBytes_linesText hne, ofText]
  cases Text.read (linesText (s.toList.flatMap functionLines)) with
  | error e =>
    constructor
    · intro h
      cases h
    · rintro ⟨_, hr, -⟩
      cases hr
  | ok r =>
    constructor
    · intro h
      cases h
      exact ⟨r, rfl, rfl⟩
    · rintro ⟨_, hr, rfl⟩
      cases hr
      rfl

/-- What a text is read as when all names of the store fit it. -/
theorem ofBytes_of_fitsText {s : Store} (hne : s.isEmpty = false) (hdeep : s.tooDeep? = none)
    (hfits : s.FitsText) :
    Profile.ofBytes (linesText (s.toList.flatMap functionLines))
      = .ok { format := .text, store := s.plain, summary? := none } :=
  (ofBytes_linesText_eq_ok_iff hne).2 ⟨s.plain, read_of_fitsText hne hdeep hfits, rfl⟩

/-- A text keeps a store exactly if all its names fit the text: no name has a newline, a function
begins with no blank and no hash, and the first one has no hash behind white space either; a callee
begins with no blank and does not pass for a count; a target has no blank. Then the store comes back
as a text has it. -/
theorem text_keeps_iff {s : Store} (hne : s.isEmpty = false) {bytes : List UInt8}
    (hwritten : (Text.write s).toExcept = .ok bytes) :
    ((∃ p, Profile.ofBytes bytes = .ok p ∧ s.KeptBy p.store) ↔ s.FitsText) ∧
      (s.FitsText →
        Profile.ofBytes bytes = .ok { format := .text, store := s.plain, summary? := none }) := by
  obtain ⟨hdeep, rfl⟩ := write_eq_ok hwritten
  have hfits := ofBytes_of_fitsText hne hdeep
  refine ⟨⟨?_, fun h => ⟨_, hfits h, s.keptBy_plain⟩⟩, hfits⟩
  rintro ⟨p, hread, hkept⟩
  obtain ⟨r, hr, rfl⟩ := (ofBytes_linesText_eq_ok_iff hne).1 hread
  exact fitsText_of_keptBy hr hkept

/-- Names with blanks, colons and digits in them, and a hash behind white space in the name of a
function that is not the first. -/
def demangled : Store := .ofList [
  { name := "" },
  { name := "\x0c#late", entryCount := 2 },
  { name := "operator new(unsigned long)"
    samples := .ofList [(.ofLine 3 1, { count := 4, targets := .ofList [("std::swap<int>", 4)] })]
    callees := .ofList [(⟨.ofLine 5 0, "6: f(int, char)"⟩, {
      name := "", samples := .ofList [(.ofLine 0 0, { count := 1 })] })] }]

/-- The function of `demangled` with the hash, alone. -/
def hashAlone : Store := .ofList [{ name := "\x0c#late", entryCount := 2 }]

/-- The text of the one store keeps it, and that of the other does not. -/
theorem demangled_is_kept :
    (∃ bytes p, (Text.write demangled).toExcept = .ok bytes ∧ Profile.ofBytes bytes = .ok p ∧
      demangled.KeptBy p.store) ∧
    ∃ bytes, (Text.write hashAlone).toExcept = .ok bytes ∧
      ¬ ∃ p, Profile.ofBytes bytes = .ok p ∧ hashAlone.KeptBy p.store := by
  have hwritten := Text.toExcept_write (s := demangled) (by decide +kernel)
  have halone := Text.toExcept_write (s := hashAlone) (by decide +kernel)
  obtain ⟨hkept, -⟩ := text_keeps_iff (by decide +kernel) hwritten
  obtain ⟨hlost, -⟩ := text_keeps_iff (by decide +kernel) halone
  obtain ⟨p, hread, hp⟩ := hkept.2 (by decide +kernel)
  exact ⟨⟨_, p, hwritten, hread, hp⟩, _, halone, hlost.not.2 (by decide +kernel)⟩

/-- Two functions, of which the first has a name with a hash in front. -/
def hashed : Store := .ofList [
  { name := "#lambda", entryCount := 7 },
  { name := "main", entryCount := 1, samples := .ofList [(.ofLine 1 0, { count := 5 })] }]

/-- The first function of `hashed` is taken for a comment, and no error tells of it. -/
theorem hashed_is_lost :
    hashed.isEmpty = false ∧
      hashed.NamesObey (newline ∉ encodeText ·) (newline ∉ encodeText ·) (newline ∉ encodeText ·) ∧
      ∃ bytes p, (Text.write hashed).toExcept = .ok bytes ∧ Profile.ofBytes bytes = .ok p ∧
        hashed.names = ["#lambda", "main"] ∧ p.store.names = ["main"] := by
  have hwritten := Text.toExcept_write (s := hashed) (by decide +kernel)
  have hnames : ((Profile.ofBytes (linesText (hashed.toList.flatMap functionLines))).toOption.map
      fun p => p.store.names) = some ["main"] := by decide +kernel
  cases hread : Profile.ofBytes (linesText (hashed.toList.flatMap functionLines)) with
  | error e =>
    rw [hread] at hnames
    cases hnames
  | ok p =>
    rw [hread] at hnames
    exact ⟨by decide +kernel, by decide +kernel, _, p, hwritten, hread, by decide +kernel,
      Option.some.inj hnames⟩

end Profile

end SamplingProfile
