-- A whole profile behind its version number comes back as it was written, with every callee
-- under its own name, or it is refused because two callees of one name are called from one
-- location. What the summary counts takes bytes in the functions as well, so its numbers fit
-- wherever the profile does.
import SamplingProfile.Proofs.Binary.Sections
import SamplingProfile.Proofs.Binary.Trees
import SamplingProfile.Proofs.Store.SummaryCounts

namespace SamplingProfile

namespace Binary

open Reader

theorem NameTable.names_ofStore {l : Layout} (hl : l.names = .inlined) (s : Store) :
    (ofStore l s).names = [] := by
  unfold ofStore
  rw [hl]
  rfl

namespace Layout

variable (l : Layout)

/-! ## How long the parts are -/

section Length

variable {table : NameTable}

theorem atLeast_writeBody (b : Body) : (l.writeBody table b).AtLeast b.counts.length := by
  have hsamples : (Output.concat (b.samples.entries.map (l.writeSample table))).AtLeast
      b.counts.length := by
    have hw : ∀ sample ∈ b.samples.entries, (l.writeSample table sample).AtLeast 1 :=
      fun sample _ => atLeast_writeSample l sample
    have h := Output.atLeast_length_of_concat hw
    unfold Body.counts SortedMap.values
    rwa [List.length_map, List.length_map]
  unfold writeBody
  exact hsamples.concat (by simp)

theorem atLeast_writeNode {body : Body} {inner : Forest}
    (h : (l.writeForest table inner).AtLeast inner.counts.length) :
    (l.writeNode table body inner).AtLeast (body.counts ++ inner.counts).length := by
  unfold writeNode
  rw [List.length_append]
  exact (atLeast_writeBody l body).append (h.append_right _)

theorem atLeast_counts_writeForest (f : Forest) :
    (l.writeForest table f).AtLeast f.counts.length := by
  induction f with
  | nil => exact Output.atLeast_zero _
  | cons site body inner rest ihInner ihRest =>
    rw [writeForest_cons, Forest.counts, ← List.append_assoc, List.length_append]
    exact ((atLeast_writeNode l ihInner).append_right _).append ihRest

theorem atLeast_writeFunction (f : FunctionProfile) :
    (l.writeFunction table f).AtLeast f.sampleCounts.length := by
  rw [writeFunction_eq, FunctionProfile.sampleCounts_eq_counts]
  exact atLeast_writeNode l (atLeast_counts_writeForest l _)

theorem atLeast_one_writeFunction (f : FunctionProfile) :
    (l.writeFunction table f).AtLeast 1 := by
  rw [writeFunction_eq]
  unfold writeNode
  apply Output.AtLeast.append_right
  exact (atLeast_writeSmall l .callsiteCount _).append_left _

theorem atLeast_writeTable (deflate : List UInt8 → List UInt8)
    (hinlined : l.names = .inlined → table.names = []) :
    (l.writeTable table false deflate).AtLeast table.names.length := by
  unfold writeTable
  cases hn : l.names with
  | inlined =>
    rw [hinlined hn]
    exact Output.atLeast_zero _
  | table =>
    apply Output.AtLeast.append_right
    exact Output.atLeast_length_of_concat fun name _ => atLeast_writeText l name
  | compressibleTable =>
    intro bytes h
    cases h
    have hle := NameList.length_le_payload table.names
    simp only [NameList.write, List.length_append]
    rw [if_neg (by simp), List.length_append]
    omega

end Length

/-! ## Functions -/

section Functions

variable {table : NameTable} (hlen : table.names.length < UInt64.size)
include hlen

theorem undoes_readEntry {f : FunctionProfile} (hf : f.callees.forest.Apart)
    (hh : f.height ≤ maxInlineDepth) :
    (l.readEntry table.names.toArray).Undoes (l.writeFunction table f)
      (f.name, f.underOwnNames) := by
  have hcallees := undoes_readCallees l hlen hf hh fun _ _ => List.not_mem_nil
  have hnode := undoes_readNode l hlen f.toBody hcallees
  rw [writeFunction_eq]
  exact (hnode.within .function).bind_pure rfl

theorem refuses_readEntry {f : FunctionProfile} (hf : ¬f.callees.forest.Apart)
    (hh : f.height ≤ maxInlineDepth) :
    (l.readEntry table.names.toArray).Refuses (l.writeFunction table f) .duplicateCallsite := by
  have hmet : ¬(f.callees.forest.Apart ∧ ∀ site ∈ f.callees.forest.ownSites, site ∉ []) :=
    fun h => hf h.1
  have hcallees := refuses_readCallees l hlen hh hmet
  have hnode := refuses_readNode l hlen f.toBody hcallees
  rw [writeFunction_eq]
  exact (hnode.within .function).bind_last _

variable {s : Store} (hdeep : s.tooDeep? = none)
include hdeep

theorem undoes_readFunctions (hs : s.CalleesApart) :
    (distinct .duplicateFunction (l.readEntry table.names.toArray) s.toList.length []).Undoes
      (.concat (s.toList.map (l.writeFunction table)))
      (s.toList.map fun f => (f.name, f.underOwnNames)) := by
  apply undoes_distinct
  · intro f hf
    exact undoes_readEntry l hlen (hs f hf) (Store.tooDeep?_eq_none_iff.1 hdeep f hf)
  · rw [Store.map_name_toList]
    exact s.functions.nodup_keys
  · intro f hf
    exact List.not_mem_nil

theorem refuses_readFunctions (hs : ¬s.CalleesApart) :
    (distinct .duplicateFunction (l.readEntry table.names.toArray) s.toList.length []).Refuses
      (.concat (s.toList.map (l.writeFunction table))) .duplicateCallsite := by
  have hentry : ∀ f ∈ s.toList,
      (l.readEntry table.names.toArray).Undoes (l.writeFunction table f)
        (f.name, f.underOwnNames) ∨
      (l.readEntry table.names.toArray).Refuses (l.writeFunction table f)
        .duplicateCallsite := by
    intro f hf
    by_cases hapart : f.callees.forest.Apart
    · exact Or.inl (undoes_readEntry l hlen hapart (Store.tooDeep?_eq_none_iff.1 hdeep f hf))
    · exact Or.inr (refuses_readEntry l hlen hapart (Store.tooDeep?_eq_none_iff.1 hdeep f hf))
  apply refuses_distinct hentry
  · rw [Store.map_name_toList]
    exact s.functions.nodup_keys
  · intro f hf
    exact List.not_mem_nil
  · unfold Store.CalleesApart at hs
    simp only [Classical.not_forall] at hs
    rcases hs with ⟨f, hf, hapart⟩
    exact ⟨f, hf, refuses_readEntry l hlen hapart (Store.tooDeep?_eq_none_iff.1 hdeep f hf)⟩

end Functions

/-! ## Sections -/

/-- Writes all that follows the version number. -/
def writeSections (compress : Bool) (s : Store) (summary? : Option Summary)
    (deflate : List UInt8 → List UInt8) : Output :=
  let table := NameTable.ofStore l s
  l.writeSummary summary? ++ (l.writeTable table compress deflate
    ++ (l.writeSmall .functionCount s.toList.length
      ++ .concat (s.toList.map (l.writeFunction table))))

theorem writeProfile_eq (compress : Bool) (s : Store) (summary? : Option Summary)
    (deflate : List UInt8 → List UInt8) :
    l.writeProfile compress s summary? deflate
      = ⟨magic, none⟩ ++ (⟨LittleEndian.encode 8 l.version.number, none⟩
          ++ l.writeSections compress s summary? deflate) := by
  unfold writeProfile writeSections
  simp only [Output.concat_cons, Output.concat_nil, Output.append_empty, Store.length_toList]

variable {s : Store} {compress : Bool} {summary? : Option Summary}
  {deflate : List UInt8 → List UInt8}

/-- The numbers of a profile fit in 64 bits when its length does. Only the names before they are
compressed may be longer than the profile. -/
theorem numbers_fit
    (hfit : compress = true →
      (NameList.payload (NameTable.ofStore l s).names).length < UInt64.size)
    {bytes : List UInt8} (h : l.writeSections compress s summary? deflate = ⟨bytes, none⟩)
    (hlt : bytes.length < UInt64.size) :
    (NameTable.ofStore l s).names.length < UInt64.size ∧
      s.toList.length < UInt64.size ∧ s.sampleCounts.length < UInt64.size := by
  unfold writeSections at h
  dsimp only at h
  obtain ⟨front, tail, -, htail, rfl⟩ := Output.append_eq_bytes h
  obtain ⟨written, tail', htable, htail', rfl⟩ := Output.append_eq_bytes htail
  obtain ⟨number, functions, -, hfunctions, rfl⟩ := Output.append_eq_bytes htail'
  simp only [List.length_append] at hlt
  refine ⟨?_, ?_, ?_⟩
  · cases compress with
    | true =>
      have := NameList.length_le_payload (NameTable.ofStore l s).names
      have := hfit rfl
      omega
    | false =>
      have := atLeast_writeTable l deflate (fun hl => NameTable.names_ofStore hl s) written htable
      omega
  · have hw : ∀ f ∈ s.toList, (l.writeFunction (NameTable.ofStore l s) f).AtLeast 1 :=
      fun f _ => atLeast_one_writeFunction l f
    have := Output.atLeast_length_of_concat hw functions hfunctions
    omega
  · have hw : ∀ f ∈ s.toList, (l.writeFunction (NameTable.ofStore l s) f).AtLeast
        f.sampleCounts.length := fun f _ => atLeast_writeFunction l f
    have := Output.atLeast_concat hw functions hfunctions
    unfold Store.sampleCounts
    rw [List.length_flatMap]
    omega

/-- The summary that is written, if one is, is that of the store. -/
def SummaryOf (s : Store) : Option Summary → Prop
  | none => True
  | some x => ∃ cutoffs, s.summary cutoffs = .ok x

theorem undoes_readSummary (hsummary : SummaryOf s summary?)
    (hsize : s.toList.length < UInt64.size) (hcounts : s.sampleCounts.length < UInt64.size) :
    l.readSummary.Undoes (l.writeSummary summary?) summary? := by
  cases summary? with
  | none => exact (restores_readSummary_none l).undoes
  | some x =>
    rcases hsummary with ⟨cutoffs, hx⟩
    rcases Store.summary_eq_ok hx with ⟨hnum, hfunctions, hcoverage⟩
    rw [Store.length_toList] at hsize
    intro bytes h hlt
    have hlength := atLeast_writeSummary l x bytes h
    apply restores_readSummary_some l _ _ _ _ bytes h
    · omega
    · omega
    · omega
    · intro c hc
      have := hcoverage c hc
      omega

variable (hd : Zlib.Lossless deflate)
  (hfit : compress = true →
    (NameList.payload (NameTable.ofStore l s).names).length < UInt64.size)
  (hsummary : SummaryOf s summary?) (hdeep : s.tooDeep? = none)
include hd hfit hsummary hdeep

theorem undoes_readSections (hs : s.CalleesApart) :
    l.readSections.Undoes (l.writeSections compress s summary? deflate)
      (s.underOwnNames, summary?) := by
  intro bytes h hlt
  rcases numbers_fit l hfit h hlt with ⟨hlen, hsize, hcounts⟩
  have htable := undoes_readTable l hd hfit fun hl => NameTable.names_ofStore hl s
  have hfunctions := undoes_readFunctions l hlen hdeep hs
  have hall : l.readSections.Undoes (l.writeSections compress s summary? deflate)
      (s.underOwnNames, summary?) := by
    unfold readSections writeSections
    apply ((undoes_readSummary l hsummary hsize hcounts).within .summary).bind
    apply (htable.within .nameTable).bind
    apply (undoes_readSmall l .functionCount hsize).bind
    apply hfunctions.bind_pure
    rw [List.map_map]
    rfl
  exact hall bytes h hlt

theorem refuses_readSections (hs : ¬s.CalleesApart) :
    l.readSections.Refuses (l.writeSections compress s summary? deflate)
      .duplicateCallsite := by
  intro bytes h hlt
  rcases numbers_fit l hfit h hlt with ⟨hlen, hsize, hcounts⟩
  have htable := undoes_readTable l hd hfit fun hl => NameTable.names_ofStore hl s
  have hfunctions := refuses_readFunctions l hlen hdeep hs
  have hall : l.readSections.Refuses (l.writeSections compress s summary? deflate)
      .duplicateCallsite := by
    unfold readSections writeSections
    apply Refuses.bind_right ((undoes_readSummary l hsummary hsize hcounts).within .summary)
    apply Refuses.bind_right (htable.within .nameTable)
    apply Refuses.bind_right (undoes_readSmall l .functionCount hsize)
    exact hfunctions.bind_last _
  exact hall bytes h hlt

end Layout

end Binary

end SamplingProfile
