-- The names that are read from a text. Whatever the text is, a name that is found in it stands
-- between the marks that end it, so it has none of these where it was found; and a text that
-- seems to hold another name has been taken apart in another place.
import SamplingProfile.Proofs.Store.NameRules
import SamplingProfile.Proofs.Text.Reading
import SamplingProfile.Proofs.Text.Rows
import SamplingProfile.Proofs.Text.Written

namespace SamplingProfile.Text

/-! ## Lines -/

/-- Contents that are found in a line: no newline is in them, no blank is in front, and they are no
comment. -/
structure IsFound (content : List UInt8) : Prop where
  no_newline : newline ∉ content
  unblank : content.takeWhile isBlank = []
  heard : isSilent content = false

theorem isFound_of_lineOf? {start : Nat} {bytes : List UInt8} {l : Line} (hbytes : newline ∉ bytes)
    (h : lineOf? start bytes = some l) : IsFound l.content.bytes := by
  unfold lineOf? at h
  dsimp only at h
  split at h
  · cases h
  · rename_i hsilent
    cases h
    refine ⟨fun hmem => ?_, takeWhile_dropWhile _ _, Bool.eq_false_iff.2 hsilent⟩
    exact hbytes ((isPrefix_dropReturn bytes).subset ((List.dropWhile_suffix _).subset hmem))

theorem isFound_of_mem_lines {span : Span} {l : Line} (h : l ∈ lines span) :
    IsFound l.content.bytes := by
  fun_induction lines span with
  | case1 span line hsplit =>
    exact isFound_of_lineOf? (newline_notMem_of_splitLine hsplit) (Option.mem_toList.1 h)
  | case2 span line rest hsplit ih =>
    rcases List.mem_append.1 h with h | h
    · exact isFound_of_lineOf? (newline_notMem_of_splitLine hsplit) (Option.mem_toList.1 h)
    · exact ih h

/-- A name in front of a line can begin one. -/
theorem IsFound.beginsLine {content back : List UInt8} {name : String} (h : IsFound content)
    (hname : content = encodeText name ++ 0x3a :: back) : BeginsLine name := by
  obtain ⟨hnewline, hblank, hheard⟩ := h
  subst hname
  refine ⟨fun hmem => hnewline (List.mem_append_left _ hmem),
    takeWhile_eq_nil_of_append hblank, fun hhash => ?_⟩
  obtain ⟨rest, hrest⟩ := List.head?_eq_some_iff.1 hhash
  rw [hrest] at hheard
  cases hheard

/-- A name that is read as a callee can follow a location. -/
theorem isCalleeName_of_readBodyLine {span : Span} {site : Callsite} (hspan : newline ∉ span.bytes)
    (h : readBodyLine span = .ok (.callee site)) : IsCalleeName site.callee := by
  obtain ⟨behind, total, hline, hcount, digits, rfl, -⟩ := readBodyLine_eq_callee_iff.1 h
  exact ⟨fun hmem => hspan (hline.suffix.subset (List.mem_append_left _ hmem)),
    takeWhile_eq_nil_of_append hline.unblank, leadingCount?_append_colon_iff.1 hcount⟩

/-- A name that is read as called from a location can stand among others. -/
theorem isTargetName_of_readBodyLine {span : Span} {location : Location} {count : Count}
    {targets : List (String × Count)} (hspan : newline ∉ span.bytes)
    (h : readBodyLine span = .ok (.sample location count targets)) {called : String × Count}
    (hcalled : called ∈ targets) : IsTargetName called.1 := by
  obtain ⟨digits, behind, hline, -, -, htargets⟩ := readBodyLine_eq_sample_iff.1 h
  obtain ⟨word, hword, number, rfl, -⟩ := htargets.token_of_mem hcalled
  obtain ⟨hin, hblank⟩ := subset_of_mem_tokens hword
  have hbehind := (List.suffix_append digits behind).trans hline.suffix
  exact ⟨fun hmem => hspan (hbehind.subset (hin (List.mem_append_left _ hmem))),
    fun b hb => hblank b (List.mem_append_left _ hb)⟩

/-! ## Trees and stores -/

/-- A line of samples adds no name that a text cannot hold. -/
theorem namesObey_addSamples {node : FunctionProfile} {span : Span} {location : Location}
    {count : Count} {targets : List (String × Count)}
    (hnode : node.NamesObey IsCalleeName IsTargetName) (hspan : newline ∉ span.bytes)
    (h : readBodyLine span = .ok (.sample location count targets)) :
    (addSamples node location count targets).NamesObey IsCalleeName IsTargetName := by
  refine ⟨Body.targetsObey_iff.2 fun q tally hq called n hn => ?_, hnode.2⟩
  have hget := SortedMap.get?_insert node.samples location q
    { count, instructions := 1, targets := .ofList targets }
  rw [addSamples, hget] at hq
  split at hq
  · cases hq
    exact isTargetName_of_readBodyLine hspan h (SortedMap.mem_of_get?_ofList hn)
  · exact Body.targetsObey_iff.1 hnode.1 q tally hq called n hn

theorem namesObey_addCallee {node callee : FunctionProfile} {span : Span} {site : Callsite}
    (hnode : node.NamesObey IsCalleeName IsTargetName) (hspan : newline ∉ span.bytes)
    (h : readBodyLine span = .ok (.callee site))
    (hcallee : callee.NamesObey IsCalleeName IsTargetName) :
    (addCallee node site callee).NamesObey IsCalleeName IsTargetName := by
  refine FunctionProfile.namesObey_iff.2 ⟨hnode.1, fun q c hc => ?_⟩
  rw [addCallee, FunctionProfile.callee?, Callees.get?_insert] at hc
  split at hc
  · rename_i hq
    cases hc
    rw [hq]
    exact ⟨isCalleeName_of_readBodyLine hspan h, hcallee⟩
  · exact (FunctionProfile.namesObey_iff.1 hnode).2 q c hc

/-- Lines add no name to a node that a text cannot hold. -/
theorem Builds.namesObey {indent levels : Nat} {node f : FunctionProfile} {ls : List Line}
    (h : Builds indent levels node ls f) (hls : ∀ l ∈ ls, IsFound l.content.bytes)
    (hnode : node.NamesObey IsCalleeName IsTargetName) :
    f.NamesObey IsCalleeName IsTargetName := by
  induction h with
  | nil => exact hnode
  | sample _ hline _ _ ih =>
    obtain ⟨hfound, hrest⟩ := List.forall_mem_cons.1 hls
    exact ih hrest (namesObey_addSamples hnode hfound.no_newline hline)
  | @callee indent _ _ _ _ _ rest site _ hline _ _ _ ihCallee ih =>
    obtain ⟨hfound, hrest⟩ := List.forall_mem_cons.1 hls
    have hcallee := ihCallee (fun l hl => hrest l (deeper_subset indent rest hl))
      (FunctionProfile.namesObey_ofName site.callee)
    exact ih (fun l hl => hrest l (behind_subset indent rest hl))
      (namesObey_addCallee hnode hfound.no_newline hline hcallee)

/-- Every function that is read has a line that is not indented, and below it no name that a text
cannot hold. -/
theorem BuildsStore.line {s s' : Store} {ls : List Line} (h : BuildsStore s ls s')
    (hls : ∀ l ∈ ls, IsFound l.content.bytes) {name : String} {f : FunctionProfile}
    (hf : s'.get? name = some f) :
    s.get? name = some f ∨ (f.NamesObey IsCalleeName IsTargetName ∧
      ∃ l ∈ ls, l.indent = 0 ∧ ∃ total entryCount,
        readFunctionLine l.content = .ok (name, total, entryCount)) := by
  induction h with
  | nil => exact .inl hf
  | @function s s' line rest said total entryCount g hindent hline hbody hnew hmore ih =>
    have hrest := (List.forall_mem_cons.1 hls).2
    rcases ih (fun l hl => hrest l (behind_subset 0 rest hl)) hf with hs | ⟨hbelow, l, hl, hfound⟩
    · rw [Store.get?_insert] at hs
      split at hs
      · rename_i hname
        cases hs
        have hsaid : f.name = said := hbody.name_eq
        have hbelow := hbody.namesObey (fun l hl => hrest l (deeper_subset 0 rest hl))
          (FunctionProfile.namesObey_ofName said)
        rw [hname, hsaid]
        exact .inr ⟨hbelow, line, List.mem_cons_self, hindent, total, entryCount, hline⟩
      · exact .inl hs
    · exact .inr ⟨hbelow, l, List.mem_cons_of_mem line (behind_subset 0 rest hl), hfound⟩

/-- A function that is read from a text has a line in it, and below it no name that a text cannot
hold. -/
theorem line_of_read {bytes : List UInt8} {s : Store} (h : Text.read bytes = .ok s) {name : String}
    {f : FunctionProfile} (hf : s.get? name = some f) :
    f.NamesObey IsCalleeName IsTargetName ∧
      ∃ l ∈ lines (skipHeader (.ofBytes bytes)), l.indent = 0 ∧ ∃ total entryCount,
        readFunctionLine l.content = .ok (name, total, entryCount) := by
  rcases (read_eq_ok_iff.1 h).line (fun l hl => isFound_of_mem_lines hl) hf with hnone | hline
  · cases hnone
  · exact hline

/-- Whatever the text is, the names that are read from it are such as stand in a text. -/
theorem namesObey_of_read {bytes : List UInt8} {s : Store} (h : Text.read bytes = .ok s) :
    s.NamesObey BeginsLine IsCalleeName IsTargetName := by
  refine Store.namesObey_iff_trees.2 fun f hf => ?_
  obtain ⟨hbelow, l, hl, -, total, entryCount, hline⟩ :=
    line_of_read h (Store.mem_toList_iff.1 hf)
  obtain ⟨front, entries, hfront, ⟨digits, rfl, -⟩, -⟩ := readFunctionLine_eq_ok_iff.1 hline
  rw [List.append_assoc] at hfront
  exact ⟨(isFound_of_mem_lines hl).beginsLine hfront, hbelow⟩

end SamplingProfile.Text
