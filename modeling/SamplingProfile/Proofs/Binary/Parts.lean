-- The parts of a binary profile come back as they were written. A number that a version has no
-- room for and a name that is not in the table stop the writer, so nothing has to be said of
-- them here; what the writer counts before it writes it is at most as long as what it writes.
import SamplingProfile.Binary.Read
import SamplingProfile.Binary.Write
import SamplingProfile.Proofs.NameList

namespace SamplingProfile.Binary

open Reader

namespace NameTable

theorem names_of_index? {table : NameTable} {name : String} {index : Nat}
    (h : table.index? name = some index) :
    index < table.names.length ∧ table.names.toArray[index]? = some name := by
  unfold index? at h
  rw [List.findIdx?_eq_some_iff_getElem] at h
  rcases h with ⟨hlt, heq, -⟩
  refine ⟨hlt, ?_⟩
  rw [List.getElem?_toArray, List.getElem?_eq_getElem hlt, beq_iff_eq.1 heq]

end NameTable

namespace Layout

/-! ## Numbers -/

theorem atLeast_writeSmall (l : Layout) (field : Field) (n : Nat) :
    (l.writeSmall field n).AtLeast 1 := by
  unfold writeSmall
  intro bytes h
  apply List.length_pos_iff.2
  intro hnil
  subst hnil
  split at h
  · split at h <;> cases h
  · cases h
  · simp [Leb128.encode_ne_nil] at h

theorem atLeast_writeCount (l : Layout) (count : Count) : (l.writeCount count).AtLeast 1 := by
  unfold writeCount
  intro bytes h
  apply List.length_pos_iff.2
  intro hnil
  subst hnil
  split at h
  · cases h
  · cases h
  · simp [Leb128.encode_ne_nil] at h

theorem restores_readSmall (l : Layout) (field : Field) {n : Nat} (h : n < UInt64.size) :
    l.readSmall.Restores (l.writeSmall field n) n := by
  unfold readSmall writeSmall
  cases l.integers with
  | narrow =>
    by_cases hn : n < UInt32.size
    · rw [if_pos hn]
      exact restores_littleEndian hn
    · rw [if_neg hn]
      intro bytes hb
      cases hb
  | wide => exact restores_littleEndian h
  | leb128 => exact restores_leb128 h

theorem undoes_readSmall (l : Layout) (field : Field) {n : Nat} (h : n < UInt64.size) :
    l.readSmall.Undoes (l.writeSmall field n) n := (restores_readSmall l field h).undoes

theorem restores_readWord (l : Layout) (field : Field) (n : UInt32) :
    l.readWord.Restores (l.writeSmall field n.toNat) n := by
  have hlt := n.toNat_lt
  have hlt' : n.toNat < UInt64.size := Nat.lt_trans hlt (by decide)
  apply Restores.get_bind
  intro span
  apply (restores_readSmall l field hlt').bind_pure
  rw [if_pos hlt, UInt32.ofNat_toNat]

theorem undoes_readWord (l : Layout) (field : Field) (n : UInt32) :
    l.readWord.Undoes (l.writeSmall field n.toNat) n := (restores_readWord l field n).undoes

theorem restores_readCount (l : Layout) (count : Count) :
    l.readCount.Restores (l.writeCount count) count := by
  have hlt := count.toNat_lt
  have hback : (pure (UInt64.ofNat count.toNat) : Reader Count) = pure count := by
    rw [UInt64.ofNat_toNat]
  unfold readCount writeCount
  cases l.integers with
  | narrow => exact (restores_littleEndian hlt).bind_pure hback
  | wide => exact (restores_littleEndian hlt).bind_pure hback
  | leb128 => exact (restores_leb128 hlt).bind_pure hback

theorem undoes_readCount (l : Layout) (count : Count) :
    l.readCount.Undoes (l.writeCount count) count := (restores_readCount l count).undoes

/-- A number of entries before the entries, each of which takes a byte or more. -/
theorem undoes_counted {ι β : Type} (l : Layout) (field : Field) {write : ι → Output}
    {xs : List ι} {f : Nat → Reader β} {b : β} (hw : ∀ x ∈ xs, (write x).AtLeast 1)
    (hf : (f xs.length).Undoes (.concat (xs.map write)) b) :
    (l.readSmall >>= f).Undoes
      (l.writeSmall field xs.length ++ .concat (xs.map write)) b := by
  refine Undoes.bind_of_rest (fun rest h hlt => ?_) hf
  have hle := Output.atLeast_length_of_concat hw rest h
  exact undoes_readSmall l field (Nat.lt_of_le_of_lt hle hlt)

/-! ## Names -/

theorem undoes_readText (l : Layout) (s : String) : l.readText.Undoes (l.writeText s) s := by
  refine Undoes.bind_of_rest (fun rest h hlt => ?_) (undoes_text s)
  cases h
  exact undoes_readSmall l .nameLength hlt

theorem atLeast_writeText (l : Layout) (s : String) : (l.writeText s).AtLeast 1 :=
  (atLeast_writeSmall l .nameLength _).append_left _

theorem undoes_readTable (l : Layout) {table : NameTable} {compress : Bool}
    {deflate : List UInt8 → List UInt8} (hd : Zlib.Lossless deflate)
    (hfit : compress = true → (NameList.payload table.names).length < UInt64.size)
    (hinlined : l.names = .inlined → table.names = []) :
    l.readTable.Undoes (l.writeTable table compress deflate) table.names.toArray := by
  unfold readTable writeTable
  cases hn : l.names with
  | inlined =>
    rw [hinlined hn]
    exact undoes_pure _
  | table =>
    have hw : ∀ s ∈ table.names, (l.writeText s).AtLeast 1 := fun s _ => atLeast_writeText l s
    apply undoes_counted l .nameCount hw
    rw [← bind_assoc]
    apply Undoes.bind_pure (undoes_ensure_repeated hw fun s _ => undoes_readText l s)
    rw [List.map_id']
  | compressibleTable => exact (NameList.undoes_read hd hfit).bind_pure rfl

theorem undoes_readName (l : Layout) {table : NameTable}
    (hlen : table.names.length < UInt64.size) (name : String) :
    (l.readName table.names.toArray).Undoes (l.writeName table name) name := by
  unfold readName writeName
  cases l.names with
  | inlined => exact undoes_readText l name
  | table | compressibleTable =>
    dsimp only
    cases hi : table.index? name with
    | none =>
      intro bytes hb
      cases hb
    | some index =>
      rcases NameTable.names_of_index? hi with ⟨hlt, hname⟩
      apply Undoes.get_bind
      intro span
      apply (undoes_readSmall l .nameIndex (Nat.lt_trans hlt hlen)).bind_pure
      rw [hname]

/-! ## Nodes -/

/-- The entries of a map are under different keys. -/
theorem undoes_entries {κ β : Type} [Ord κ] [DecidableEq κ] [Std.LawfulEqOrd κ]
    (m : SortedMap κ β) {r : Reader (κ × β)} {p : Problem} {write : κ × β → Output}
    (hr : ∀ e ∈ m.entries, r.Undoes (write e) e) :
    (distinct p r m.entries.length []).Undoes (.concat (m.entries.map write)) m.entries := by
  have h := undoes_distinct (p := p) hr m.nodup_keys fun _ _ => List.not_mem_nil
  rwa [List.map_id'] at h

variable (l : Layout) {table : NameTable}

theorem atLeast_writeTarget (target : String × Count) : (l.writeTarget table target).AtLeast 1 :=
  (atLeast_writeCount l _).append_right _

theorem undoes_readTarget (hlen : table.names.length < UInt64.size) (target : String × Count) :
    (l.readTarget table.names.toArray).Undoes (l.writeTarget table target) target := by
  apply (undoes_readName l hlen target.1).bind
  exact (undoes_readCount l target.2).bind_pure rfl

theorem atLeast_writeSample (sample : Location × Tally) :
    (l.writeSample table sample).AtLeast 1 :=
  (atLeast_writeSmall l .offset _).append_left _

theorem undoes_readSample (hlen : table.names.length < UInt64.size) (sample : Location × Tally) :
    (l.readSample table.names.toArray).Undoes (l.writeSample table sample) sample := by
  rcases sample with ⟨location, tally⟩
  unfold readSample writeSample
  simp only [Output.concat_cons, Output.concat_nil, Output.append_empty]
  apply (undoes_readWord l .offset location.packed).bind
  apply (undoes_readCount l tally.count).bind
  apply (undoes_readCount l tally.instructions).bind
  apply undoes_counted l .targetCount fun target _ => atLeast_writeTarget l target
  apply (undoes_entries tally.targets fun target _ => undoes_readTarget l hlen target).bind_pure
  rw [SortedMap.ofList_entries]

theorem undoes_readBody (hlen : table.names.length < UInt64.size) (b : Body) :
    (l.readBody table.names.toArray).Undoes (l.writeBody table b) b := by
  unfold readBody writeBody
  simp only [Output.concat_cons, Output.concat_nil, Output.append_empty]
  apply (undoes_readName l hlen b.name).bind
  apply (undoes_readName l hlen b.directory).bind
  apply (undoes_readName l hlen b.file).bind
  apply (undoes_readWord l .startLine b.startLine).bind
  apply (undoes_readCount l b.entryCount).bind
  apply undoes_counted l .locationCount fun sample _ => atLeast_writeSample l sample
  apply (undoes_entries b.samples fun sample _ => undoes_readSample l hlen sample).bind_pure
  rw [SortedMap.ofList_entries]

/-! ## The summary -/

theorem restores_readCoverage {c : Coverage} (hc : c.numCounts < UInt64.size) :
    l.readCoverage.Restores (l.writeCoverage c) c := by
  unfold readCoverage writeCoverage
  rw [Output.append_assoc]
  apply (restores_readWord l .cutoff c.cutoff).bind
  apply (restores_readCount l c.minCount).bind
  exact (restores_readSmall l .cutoffCount hc).bind_pure rfl

theorem atLeast_writeCoverage (c : Coverage) : (l.writeCoverage c).AtLeast 1 := by
  unfold writeCoverage
  rw [Output.append_assoc]
  exact (atLeast_writeSmall l .cutoff _).append_left _

theorem atLeast_writeSummary (x : Summary) :
    (l.writeSummary (some x)).AtLeast x.coverage.length := by
  have hcoverage : (Output.concat (x.coverage.map l.writeCoverage)).AtLeast x.coverage.length :=
    Output.atLeast_length_of_concat fun c _ => atLeast_writeCoverage l c
  unfold writeSummary
  exact hcoverage.concat (by simp)

theorem restores_readSummary_none : l.readSummary.Restores (l.writeSummary none) none :=
  (restores_littleEndian (by decide : 0 < LittleEndian.values 1)).bind_pure rfl

/-- Numbers of functions and of counts are kept in 64 bits in every version. -/
theorem restores_readSummary_some {x : Summary} (hcounts : x.numCounts < UInt64.size)
    (hfunctions : x.numFunctions < UInt64.size) (hlength : x.coverage.length < UInt64.size)
    (hcoverage : ∀ c ∈ x.coverage, c.numCounts < UInt64.size) :
    l.readSummary.Restores (l.writeSummary (some x)) (some x) := by
  have hfields : l.readSummaryFields.Restores (.concat [
      l.writeCount x.totalCount, l.writeCount x.maxCount, l.writeCount x.maxEntryCount,
      l.writeSmall .numberOfCounts x.numCounts, l.writeSmall .numberOfFunctions x.numFunctions,
      l.writeSmall .numberOfCutoffs x.coverage.length,
      .concat (x.coverage.map l.writeCoverage)]) x := by
    unfold readSummaryFields
    simp only [Output.concat_cons, Output.concat_nil, Output.append_empty]
    apply (restores_readCount l x.totalCount).bind
    apply (restores_readCount l x.maxCount).bind
    apply (restores_readCount l x.maxEntryCount).bind
    apply (restores_readSmall l .numberOfCounts hcounts).bind
    apply (restores_readSmall l .numberOfFunctions hfunctions).bind
    apply (restores_readSmall l .numberOfCutoffs hlength).bind
    rw [← bind_assoc]
    have hr := restores_ensure_repeated (fun c _ => atLeast_writeCoverage l c)
      fun c hc => restores_readCoverage l (hcoverage c hc)
    apply hr.bind_pure
    rw [List.map_id']
  apply (restores_littleEndian (by decide : 1 < LittleEndian.values 1)).bind
  exact hfields.bind_pure rfl

end Layout

end SamplingProfile.Binary
