-- What becomes of a store that is written as a text and read. The indents show again what belongs
-- to what, so the tree comes back with all that a text has a place for.
import SamplingProfile.Profile
import SamplingProfile.Proofs.Reading.Undoing
import SamplingProfile.Proofs.Store.OwnNames
import SamplingProfile.Proofs.Text.PlainForm
import SamplingProfile.Proofs.Text.Reading
import SamplingProfile.Proofs.Text.Rows
import SamplingProfile.Proofs.Text.Written

namespace SamplingProfile

namespace Text

/-! ## Indents -/

theorem indent_of_mem_bodyLines {b : Body} {indent : Nat} {l : Nat × List UInt8}
    (h : l ∈ bodyLines indent b) : l.1 = indent := by
  obtain ⟨sample, -, rfl⟩ := List.mem_map.1 h
  rfl

theorem le_of_mem_forestLines {f : Forest} {indent : Nat} {l : Nat × List UInt8}
    (h : l ∈ forestLines indent f) : indent ≤ l.1 := by
  induction f generalizing indent with
  | nil => cases h
  | cons site body inner rest ih ih' =>
    rw [forestLines, List.mem_cons, List.mem_append, List.mem_append] at h
    rcases h with rfl | (h | h) | h
    · exact Nat.le_refl _
    · rw [indent_of_mem_bodyLines h]
      exact Nat.le_succ indent
    · exact Nat.le_of_succ_le (ih h)
    · exact ih' h

theorem lt_of_mem_nodeLines {b : Body} {f : Forest} {indent : Nat} {l : Nat × List UInt8}
    (h : l ∈ bodyLines (indent + 1) b ++ forestLines (indent + 1) f) : indent < l.1 := by
  rcases List.mem_append.1 h with h | h
  · rw [indent_of_mem_bodyLines h]
    exact Nat.lt_succ_self indent
  · exact le_of_mem_forestLines h

theorem indent_of_head?_forestLines {f : Forest} {indent : Nat} {l : Nat × List UInt8}
    (h : (forestLines indent f).head? = some l) : l.1 = indent := by
  cases f with
  | nil => cases h
  | cons site body inner rest =>
    cases h
    rfl

/-- The first line of a node has the indent of the node, whichever kind of line it is. -/
theorem indent_of_head?_nodeLines {b : Body} {f : Forest} {indent : Nat} {l : Nat × List UInt8}
    (h : (bodyLines indent b ++ forestLines indent f).head? = some l) : l.1 = indent := by
  cases hlines : bodyLines indent b with
  | nil =>
    rw [hlines, List.nil_append] at h
    exact indent_of_head?_forestLines h
  | cons first rest =>
    rw [hlines] at h
    cases h
    exact indent_of_mem_bodyLines (hlines ▸ List.mem_cons_self)

theorem indent_of_head?_functions {fs : List FunctionProfile} {l : Nat × List UInt8}
    (h : (fs.flatMap functionLines).head? = some l) : l.1 = 0 := by
  cases fs with
  | nil => cases h
  | cons f fs =>
    cases h
    rfl

/-- Where lines are deeper up to some line, they are split there. -/
theorem split_lines {indent : Nat} {below beside : List Line}
    (hbelow : ∀ l ∈ below.map Line.said, indent < l.1)
    (hbeside : ∀ l, (beside.map Line.said).head? = some l → l.1 ≤ indent) :
    deeper indent (below ++ beside) = below ∧ behind indent (below ++ beside) = beside := by
  have hall : ∀ l ∈ below, decide (indent < l.indent) = true := by
    intro l hl
    exact decide_eq_true (hbelow l.said (List.mem_map_of_mem hl))
  rw [deeper, behind, List.takeWhile_append_of_pos hall, List.dropWhile_append_of_pos hall]
  cases beside with
  | nil => exact ⟨List.append_nil _, rfl⟩
  | cons l rest =>
    have hle : l.indent ≤ indent := hbeside l.said rfl
    have hnot : ¬ decide (indent < l.indent) = true := by
      rw [decide_eq_true_iff]
      exact Nat.not_lt.2 hle
    rw [List.takeWhile_cons, if_neg hnot, List.dropWhile_cons, if_neg hnot]
    exact ⟨List.append_nil _, rfl⟩

/-! ## The locations of a node -/

/-- The node with the locations of a list, as a text has them. -/
def withSamples (node : FunctionProfile) (entries : List (Location × Tally)) : FunctionProfile :=
  { node with samples := entries.foldl (fun m e => m.insert e.1 e.2.plain) node.samples }

theorem addSamples_entry (node : FunctionProfile) (e : Location × Tally) :
    addSamples node e.1 e.2.count e.2.targets.entries
      = { node with samples := node.samples.insert e.1 e.2.plain } := by
  rw [addSamples, SortedMap.ofList_entries]
  rfl

theorem withSamples_entries {node : FunctionProfile} (h : node.samples = ∅)
    (samples : SortedMap Location Tally) :
    withSamples node samples.entries
      = { node with samples := samples.mapValues Tally.plain } := by
  have hplain := SortedMap.ofList_entries (samples.mapValues Tally.plain)
  rw [SortedMap.ofList, SortedMap.mapValues, List.foldl_map] at hplain
  rw [withSamples, h]
  exact congrArg (fun m => { node with samples := m }) hplain

/-- Lines of locations put these into the node, before the rest is read. -/
theorem readItems_samples {indent levels : Nat} {node f : FunctionProfile}
    {entries : List (Location × Tally)} {ls rest : List Line}
    (hls : ls.map Line.said = entries.map fun e => (indent, sampleText e))
    (hnames : ∀ e ∈ entries, ∀ t ∈ e.2.targets.entries, IsTargetName t.1)
    (hdistinct : (entries.map Prod.fst).Nodup)
    (hnew : ∀ e ∈ entries, node.samples.get? e.1 = none)
    (hrest : readItems indent levels (withSamples node entries) rest = .ok f) :
    readItems indent levels node (ls ++ rest) = .ok f := by
  induction entries generalizing node ls with
  | nil =>
    rw [List.map_nil, List.map_eq_nil_iff] at hls
    rw [hls]
    exact hrest
  | cons e entries ih =>
    obtain ⟨l, ls', rfl, hsaid, hls'⟩ := List.map_eq_cons_iff.1 hls
    obtain ⟨start, hcontent⟩ := Line.content_of_said hsaid
    rw [List.map_cons, List.nodup_cons] at hdistinct
    have hline := readBodyLine_sampleText (fun t ht => (hnames e List.mem_cons_self t ht).2) start
    rw [← hcontent] at hline
    refine readItems_cons_iff.2 ⟨Line.indent_of_said hsaid,
      .inl ⟨_, _, _, hline, hnew e List.mem_cons_self, ?_⟩⟩
    rw [addSamples_entry]
    refine ih hls' (fun e' he' => hnames e' (List.mem_cons_of_mem e he')) hdistinct.2 ?_ hrest
    intro e' he'
    have hne : e'.1 ≠ e.1 := fun heq => hdistinct.1 (heq ▸ List.mem_map_of_mem he')
    rw [SortedMap.get?_insert, if_neg hne]
    exact hnew e' (List.mem_cons_of_mem e he')

/-! ## The callees of a node -/

/-- The node with the callees of a forest, as a text has them. -/
def withCallees (node : FunctionProfile) (f : Forest) (h : f.Ordered) : FunctionProfile :=
  { node with
    callees := (f.plain.toList (Forest.ordered_plain h)).foldl (fun c e => c.insert e.1 e.2)
      node.callees }

theorem withCallees_of_empty {node : FunctionProfile} (hnode : node.callees = ∅) {f : Forest}
    (h : f.Ordered) :
    withCallees node f h = { node with callees := ⟨f.plain, Forest.ordered_plain h⟩ } := by
  rw [withCallees, hnode]
  exact congrArg (fun c => { node with callees := c }) (Callees.ofList_toList ⟨_, _⟩)

/-- The lines of a node are read with the indent of the first if there is one. -/
theorem readItems_bodyIndent {indent levels : Nat} {node : FunctionProfile} {ls : List Line}
    (h : ∀ l, (ls.map Line.said).head? = some l → l.1 = indent) :
    readItems (bodyIndent ls) levels node ls = readItems indent levels node ls := by
  cases ls with
  | nil => rw [readItems_nil, readItems_nil]
  | cons l ls =>
    have hl : l.indent = indent := h l.said rfl
    rw [bodyIndent, List.head?_cons, Option.map_some, Option.getD_some, hl]

/-- The lines of a node are read if those of its callees are. -/
theorem readItems_nodeLines {indent levels : Nat} {b : Body} {f : Forest} (h : f.Ordered)
    (hbody : b.HasTextNames) (node : FunctionProfile) (hsamples : node.samples = ∅)
    (hcallees : node.callees = ∅) {ls : List Line}
    (hls : ls.map Line.said = bodyLines indent b ++ forestLines indent f)
    (hforest : ∀ (node : FunctionProfile) (ls : List Line),
      (∀ site ∈ f.sites, node.callee? site = none) → ls.map Line.said = forestLines indent f →
      readItems indent levels node ls = .ok (withCallees node f h)) :
    readItems (bodyIndent ls) levels node ls = .ok { node with
      samples := b.samples.mapValues Tally.plain
      callees := ⟨f.plain, Forest.ordered_plain h⟩ } := by
  rw [readItems_bodyIndent fun l hl => indent_of_head?_nodeLines (hls ▸ hl)]
  obtain ⟨own, below, rfl, hown, hbelow⟩ := List.map_eq_append_iff.1 hls
  refine readItems_samples hown hbody b.samples.nodup_keys ?_ ?_
  · intro e _
    rw [hsamples]
    rfl
  · have hempty : (withSamples node b.samples.entries).callees = ∅ := hcallees
    have hnew : ∀ site ∈ f.sites, (withSamples node b.samples.entries).callee? site = none := by
      intro site _
      rw [FunctionProfile.callee?, hempty, Callees.get?_empty]
    rw [hforest _ below hnew hbelow, withCallees_of_empty hempty, withSamples_entries hsamples]

/-- Lines of callees put these below the node, each with its own body and callees. -/
theorem readItems_forestLines {f : Forest} (h : f.Ordered) (hnames : f.HasTextNames)
    {indent levels : Nat} (hlevels : f.height ≤ levels) {node : FunctionProfile}
    (hnew : ∀ site ∈ f.sites, node.callee? site = none) {ls : List Line}
    (hls : ls.map Line.said = forestLines indent f) :
    readItems indent levels node ls = .ok (withCallees node f h) := by
  induction f generalizing indent levels node ls with
  | nil =>
    rw [forestLines, List.map_eq_nil_iff] at hls
    rw [hls, readItems_nil]
    rfl
  | cons site body inner rest ih ih' =>
    obtain ⟨hcallee, hbody, hinner, hrest⟩ := hnames
    obtain ⟨hlow, horderedInner, horderedRest⟩ := h
    rw [Forest.height, Nat.max_le] at hlevels
    obtain ⟨levels, rfl⟩ : ∃ below, levels = below + 1 := ⟨levels - 1, by omega⟩
    obtain ⟨l, ls', rfl, hsaid, hls'⟩ := List.map_eq_cons_iff.1 hls
    obtain ⟨start, hcontent⟩ := Line.content_of_said hsaid
    obtain ⟨below, beside, rfl, hbelow, hbeside⟩ := List.map_eq_append_iff.1 hls'
    obtain ⟨hdeeper, hbehind⟩ := split_lines (fun l hl => lt_of_mem_nodeLines (hbelow ▸ hl))
      (fun l hl => Nat.le_of_eq (indent_of_head?_forestLines (hbeside ▸ hl)))
    have hline := readBodyLine_callsiteText hcallee.2.1 hcallee.2.2 (inner.totalWith body) start
    rw [← hcontent] at hline
    have hbelowLevels : inner.height ≤ levels := by omega
    have hread := readItems_nodeLines horderedInner hbody (.ofName site.callee) rfl rfl hbelow
      fun _ _ hnew hls => ih horderedInner hinner hbelowLevels hnew hls
    rw [← hdeeper] at hread
    refine readItems_cons_iff.2 ⟨Line.indent_of_said hsaid,
      .inr ⟨site, levels, _, rfl, hline, hread, hnew site List.mem_cons_self, ?_⟩⟩
    rw [hbehind]
    refine ih' horderedRest hrest hlevels.2 ?_ hbeside
    intro site' hsite'
    have hne : site' ≠ site := by
      rintro rfl
      have hlt := hlow _ hsite'
      rw [Std.compare_self] at hlt
      cases hlt
    rw [addCallee, FunctionProfile.callee?, Callees.get?_insert, if_neg hne]
    exact hnew site' (List.mem_cons_of_mem site hsite')

/-! ## The functions of a store -/

/-- Lines of functions put these into the store. -/
theorem readFunctions_functionLines {fs : List FunctionProfile}
    (hnames : ∀ f ∈ fs, f.HasTextNamesBelow) (hheight : ∀ f ∈ fs, f.height ≤ maxInlineDepth)
    (hdistinct : (fs.map (·.name)).Nodup) {store : Store}
    (hnew : ∀ f ∈ fs, store.get? f.name = none) {ls : List Line}
    (hls : ls.map Line.said = fs.flatMap functionLines) :
    readFunctions store ls = .ok ((fs.map FunctionProfile.plain).foldl Store.insert store) := by
  induction fs generalizing store ls with
  | nil =>
    rw [List.flatMap_nil, List.map_eq_nil_iff] at hls
    rw [hls, readFunctions_nil]
    rfl
  | cons f fs ih =>
    obtain ⟨hbody, hforest⟩ := hnames f List.mem_cons_self
    obtain ⟨l, ls', rfl, hsaid, hls'⟩ := List.map_eq_cons_iff.1 hls
    obtain ⟨start, hcontent⟩ := Line.content_of_said hsaid
    obtain ⟨below, beside, rfl, hbelow, hbeside⟩ := List.map_eq_append_iff.1 hls'
    obtain ⟨hdeeper, hbehind⟩ := split_lines (fun l hl => lt_of_mem_nodeLines (hbelow ▸ hl))
      (fun l hl => Nat.le_of_eq (indent_of_head?_functions (hbeside ▸ hl)))
    have hline := readFunctionLine_text f.name f.totalCount f.entryCount start
    rw [← functionLine, ← hcontent] at hline
    have hread : readItems (bodyIndent (deeper 0 (below ++ beside))) maxInlineDepth
        { FunctionProfile.ofName f.name with entryCount := UInt64.ofNat f.entryCount.toNat }
        (deeper 0 (below ++ beside)) = .ok f.plain := by
      rw [hdeeper, UInt64.ofNat_toNat]
      exact readItems_nodeLines f.callees.ordered hbody _ rfl rfl hbelow fun _ _ hnew hls =>
        readItems_forestLines _ hforest (hheight f List.mem_cons_self) hnew hls
    refine readFunctions_cons_iff.2 ⟨Line.indent_of_said hsaid, _, _, _, _, hline, hread,
      hnew f List.mem_cons_self, ?_⟩
    rw [List.map_cons, List.nodup_cons] at hdistinct
    rw [hbehind]
    refine ih (fun g hg => hnames g (List.mem_cons_of_mem f hg))
      (fun g hg => hheight g (List.mem_cons_of_mem f hg)) hdistinct.2 ?_ hbeside
    intro g hg
    have hne : g.name ≠ f.name := fun heq => hdistinct.1 (heq ▸ List.mem_map_of_mem hg)
    have hget : (store.insert f.plain).get? g.name = store.get? g.name := by
      rw [Store.get?_insert]
      exact if_neg hne
    exact hget.trans (hnew g (List.mem_cons_of_mem f hg))

/-- All lines of functions are heard if the line of the first does not pass for a header. -/
theorem heard_functionLines {f : FunctionProfile} {fs : List FunctionProfile}
    (hnames : ∀ g ∈ f :: fs, BeginsLine g.name ∧ g.HasTextNamesBelow)
    (hhash : ((encodeText f.name).dropWhile isSpace).head? ≠ some 0x23) :
    heard (rows (linesText ((f :: fs).flatMap functionLines)))
      = (f :: fs).flatMap functionLines := by
  have hover : ¬ isPassedOver (functionLine f) = true := mt isSilent_functionLine.1 hhash
  exact heard_linesText (isContent_of_mem_lines hnames) hover

/-- From its lines a store that fits a text is read as a text has it. -/
theorem read_of_fitsText {s : Store} (hne : s.isEmpty = false) (hdeep : s.tooDeep? = none)
    (hfits : s.FitsText) :
    Text.read (linesText (s.toList.flatMap functionLines)) = .ok s.plain := by
  have hsaid : (lines (skipHeader (.ofBytes (linesText (s.toList.flatMap functionLines))))).map
      Line.said = s.toList.flatMap functionLines := by
    obtain ⟨f, fs, hlist⟩ := Store.toList_eq_cons hne
    have hnames := hfits.1
    have hhash := hfits.2 f (by rw [hlist]; rfl)
    rw [hlist] at hnames
    rw [map_said_lines_skipHeader, hlist]
    exact heard_functionLines hnames hhash
  have hnodup : (s.toList.map (·.name)).Nodup := by
    rw [Store.map_name_toList]
    exact s.functions.nodup_keys
  have hplain : (s.toList.map FunctionProfile.plain).foldl Store.insert ∅ = s.plain := by
    rw [← Store.toList_plain]
    exact Store.ofList_toList s.plain
  rw [Text.read, ← hplain]
  exact readFunctions_functionLines (fun f hf => (hfits.1 f hf).2)
    (Store.tooDeep?_eq_none_iff.1 hdeep) hnodup (fun _ _ => rfl) hsaid

/-- From its lines a store whose names a text can hold is read as a text has it. -/
theorem read_linesText {s : Store} (hne : s.isEmpty = false) (hdeep : s.tooDeep? = none)
    (hnames : s.HasTextNames) :
    Text.read (linesText (s.toList.flatMap functionLines)) = .ok s.plain :=
  read_of_fitsText hne hdeep hnames.fitsText

end Text

/-! ## What comes back -/

namespace Profile

open Text

/-- A store whose names a text can hold comes back from its text without source files and starts,
with one instruction at every location, and with every callee under the name of its callsite.
The format has no version, there is no summary, and any summary that is made is that of the
store. -/
theorem text_comes_back {s : Store} (hne : s.isEmpty = false)
    (hdepth : ∀ f ∈ s.toList, f.inlineDepth ≤ maxInlineDepth) (hnames : s.HasTextNames) :
    ∃ bytes p, (Text.write s).toExcept = .ok bytes ∧ Profile.ofBytes bytes = .ok p ∧
      p.format = .text ∧ p.version? = none ∧ p.summary? = none ∧ p.store = s.plain ∧
      ∀ cutoffs, p.store.summary cutoffs = s.summary cutoffs := by
  simp only [FunctionProfile.inlineDepth_eq_height] at hdepth
  have hdeep := Store.tooDeep?_eq_none_iff.2 hdepth
  have hwrite : (Text.write s).toExcept = .ok (s.toList.flatMap functionText) := by
    rw [Text.write, hdeep]
    rfl
  obtain ⟨text, htext⟩ : IsText (s.toList.flatMap functionText) :=
    isText_flatMap fun f _ => isText_functionText f
  have hisText : isText (s.toList.flatMap functionText) = true := by
    have hnil : s.toList.flatMap functionText ≠ [] := by
      obtain ⟨f, fs, hlist⟩ := Store.toList_eq_cons hne
      simp [hlist, functionText, lineText]
    rw [isText, decide_eq_true_iff]
    refine ⟨?_, hnil⟩
    rw [htext, decodeText?_encodeText]
    rfl
  have hread : Profile.ofBytes (s.toList.flatMap functionText)
      = .ok { format := .text, store := s.plain, summary? := none } := by
    have hmagic : Binary.hasMagic (s.toList.flatMap functionText) = false := by
      rw [htext]
      exact hasMagic_encodeText text
    rw [ofBytes, hmagic, if_neg Bool.false_ne_true, if_pos hisText, ofText, ← linesText_functions,
      read_linesText hne hdeep hnames]
    rfl
  exact ⟨_, _, hwrite, hread, rfl, rfl, rfl, rfl, s.summary_plain⟩

/-- Names made of what lines are made of: colons, numbers and dots, a count with a blank behind it
that is too large for one, and a carriage return at an end. -/
def crowded : Store := .ofList [{
  name := "1:2 : 3", directory := "src", file := "a.c", startLine := 7, entryCount := 3
  samples := .ofList [
    (⟨0x10002⟩, { count := 9, instructions := 5, targets := .ofList [("2:5", 4), ("#", 1)] })]
  callees := .ofList [
    (⟨⟨5⟩, "18446744073709551616 x"⟩, { name := "own\n", entryCount := 2 }),
    (⟨⟨5⟩, "7.1: 8:"⟩, {
      name := "", startLine := 4
      callees := .ofList [(⟨⟨1⟩, "\r"⟩, {
        name := "", samples := .ofList [(⟨1⟩, { count := 6 })] })] })] },
  { name := "\r", samples := .ofList [(⟨0⟩, { count := 1, instructions := 1 })] }]

/-- The names of `crowded` are found again in its text. -/
theorem crowded_comes_back :
    ∃ bytes p, (Text.write crowded).toExcept = .ok bytes ∧ Profile.ofBytes bytes = .ok p ∧
      p.store = crowded.plain ∧ crowded.plain ≠ crowded ∧
      p.store.summary defaultCutoffs = crowded.summary defaultCutoffs := by
  obtain ⟨bytes, p, hwrite, hread, -, -, -, hstore, hsummary⟩ :=
    text_comes_back (s := crowded) (by decide +kernel) (by decide +kernel) (by decide +kernel)
  exact ⟨bytes, p, hwrite, hread, hstore, by decide +kernel, hsummary defaultCutoffs⟩

end Profile

end SamplingProfile
