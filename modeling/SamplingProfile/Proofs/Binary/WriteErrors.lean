-- What stops a writer, and exactly when it does. The depth of a store and its summary are looked at
-- before the first byte is written. Behind them only a length can stop it, and only in the narrow
-- form.
import SamplingProfile.Proofs.Binary.Room
import SamplingProfile.Proofs.Summary.Outcome

namespace SamplingProfile

/-! ## Numbers without room -/

namespace Store

variable {s : Store} {withSummary : Bool}

/-- A length in a store, or in its summary if that is written, takes more than 32 bits. -/
inductive Oversized (s : Store) (withSummary : Bool) : Prop
  | functions (h : UInt32.size ≤ s.size)
  | counts (hsummary : withSummary = true) (h : UInt32.size ≤ s.sampleCounts.length)
  | name {name part : String} {path : List Callsite} {node : FunctionProfile}
      (hnode : s.nodeAt? name path = some node)
      (hpart : part ∈ [node.name, node.directory, node.file])
      (h : UInt32.size ≤ (encodeText part).length)
  | locations {name : String} {path : List Callsite} {node : FunctionProfile}
      (hnode : s.nodeAt? name path = some node) (h : UInt32.size ≤ node.samples.size)
  | callsites {name : String} {path : List Callsite} {node : FunctionProfile}
      (hnode : s.nodeAt? name path = some node)
      (h : UInt32.size ≤ node.callees.forest.sites.length)
  | targets {name : String} {path : List Callsite} {location : Location} {tally : Tally}
      (htally : s.tallyAt? name path location = some tally)
      (h : UInt32.size ≤ tally.targets.size)
  | target {name called : String} {path : List Callsite} {location : Location} {tally : Tally}
      {count : Count} (htally : s.tallyAt? name path location = some tally)
      (hcalled : tally.targets.get? called = some count)
      (h : UInt32.size ≤ (encodeText called).length)

theorem forall_every_iff {p : FunctionProfile → Prop} :
    (∀ f ∈ s.toList, f.Every p) ↔ ∀ name path node, s.nodeAt? name path = some node → p node := by
  constructor
  · intro h name path node hnode
    obtain ⟨f, hf, hnode⟩ := Option.bind_eq_some_iff.1 hnode
    refine h f (mem_toList_iff.2 ?_) path node hnode
    rwa [name_of_get? hf]
  · intro h f hf path node hnode
    exact h f.name path node (Option.bind_eq_some_iff.2 ⟨f, mem_toList_iff.1 hf, hnode⟩)

/-- The narrow form has room for a store exactly if no length takes more than 32 bits. -/
theorem fitsStore_iff {v : Binary.Version} :
    Binary.FitsStore v withSummary s ↔ ¬(v = .fixed ∧ s.Oversized withSummary) := by
  unfold Binary.FitsStore Binary.FitsNode
  rw [forall_every_iff]
  simp only [Binary.fitsBody_iff, Binary.Version.HasRoom]
  constructor
  · rintro ⟨hcounts, hfunctions, hnodes⟩ ⟨hv, hover⟩
    have htallies : ∀ {name path location tally}, s.tallyAt? name path location = some tally →
        tally.targets.size < UInt32.size ∧
          ∀ called count, tally.targets.get? called = some count →
            (encodeText called).length < UInt32.size := by
      intro name path location tally htally
      obtain ⟨node, hnode, htally⟩ := Option.bind_eq_some_iff.1 htally
      have hboth := (hnodes name path node hnode).1.2.2 location tally htally
      exact ⟨hboth.1 hv, fun called count hcalled => hboth.2 called count hcalled hv⟩
    cases hover with
    | functions h => exact Nat.not_le.2 (hfunctions hv) h
    | counts hsummary h => exact Nat.not_le.2 (hcounts hsummary hv) h
    | name hnode hpart h => exact Nat.not_le.2 ((hnodes _ _ _ hnode).1.1 _ hpart hv) h
    | locations hnode h => exact Nat.not_le.2 ((hnodes _ _ _ hnode).1.2.1 hv) h
    | callsites hnode h => exact Nat.not_le.2 ((hnodes _ _ _ hnode).2 hv) h
    | targets htally h => exact Nat.not_le.2 (htallies htally).1 h
    | target htally hcalled h => exact Nat.not_le.2 ((htallies htally).2 _ _ hcalled) h
  · intro hfits
    have hno : v = .fixed → ∀ {n : Nat}, (UInt32.size ≤ n → s.Oversized withSummary) →
        n < UInt32.size := fun hv n h => Nat.lt_of_not_le fun hn => hfits ⟨hv, h hn⟩
    refine ⟨fun hsummary hv => hno hv (.counts hsummary), fun hv => hno hv .functions,
      fun name path node hnode => ⟨⟨fun part hpart hv => hno hv (.name hnode hpart),
        fun hv => hno hv (.locations hnode), fun location tally htally => ?_⟩,
        fun hv => hno hv (.callsites hnode)⟩⟩
    have htally : s.tallyAt? name path location = some tally :=
      Option.bind_eq_some_iff.2 ⟨node, hnode, htally⟩
    exact ⟨fun hv => hno hv (.targets htally),
      fun called count hcalled hv => hno hv (.target htally hcalled)⟩

/-! ## Chains that are too long -/

/-- No function has a longer chain of callees than readers accept. -/
def Shallow (s : Store) : Prop := ∀ name f, s.get? name = some f → f.height ≤ maxInlineDepth

theorem shallow_iff : s.Shallow ↔ s.tooDeep? = none := by
  rw [tooDeep?_eq_none_iff]
  constructor
  · intro h f hf
    exact h f.name f (mem_toList_iff.1 hf)
  · intro h name f hf
    exact h f (mem_toList_iff.2 (by rwa [name_of_get? hf]))

/-- The first function, in the order of the names, whose chain of callees is longer than readers
accept. -/
structure IsFirstTooDeep (s : Store) (f : FunctionProfile) : Prop where
  own : s.get? f.name = some f
  deep : maxInlineDepth < f.height
  before : ∀ name g, s.get? name = some g → compare name f.name = .lt → g.height ≤ maxInlineDepth

theorem tooDeep?_eq_some_iff {f : FunctionProfile} :
    s.tooDeep? = some f ↔ s.IsFirstTooDeep f := by
  have hordered := s.increasing_toList
  unfold Increasing at hordered
  rw [List.pairwise_map] at hordered
  rw [tooDeep?, List.find?_eq_some_iff_append]
  simp only [FunctionProfile.inlineDepth_eq_height, decide_eq_true_eq, Bool.not_eq_true',
    decide_eq_false_iff_not, Nat.not_lt]
  constructor
  · rintro ⟨hdeep, front, back, hlist, hfront⟩
    have hmem : f ∈ s.toList := by simp [hlist]
    refine ⟨mem_toList_iff.1 hmem, hdeep, fun name g hg hlt => hfront g ?_⟩
    have hname := name_of_get? hg
    subst hname
    have hmem' := mem_toList_iff.2 hg
    rw [hlist, List.mem_append, List.mem_cons] at hmem'
    rw [hlist, List.pairwise_append, List.pairwise_cons] at hordered
    rcases hmem' with hmem' | rfl | hmem'
    · exact hmem'
    · simp at hlt
    · have hgt := hordered.2.1.1 g hmem'
      have hswap : compare f.name g.name = .gt := Std.OrientedCmp.gt_iff_lt.2 hlt
      rw [hgt] at hswap
      cases hswap
  · rintro ⟨hown, hdeep, hbefore⟩
    obtain ⟨front, back, hlist⟩ := List.append_of_mem (mem_toList_iff.2 hown)
    refine ⟨hdeep, front, back, hlist, fun g hg => ?_⟩
    have hmem : g ∈ s.toList := by simp [hlist, hg]
    rw [hlist, List.pairwise_append] at hordered
    exact hbefore g.name g (mem_toList_iff.1 hmem) (hordered.2.2 g hg f List.mem_cons_self)

end Store

/-! ## Writers -/

namespace Binary.Writer

variable {w : Writer} {s : Store} {deflate : List UInt8 → List UInt8}

/-- The exact sum of all counts fits in a summary, if one is written. -/
def Sums (w : Writer) (s : Store) : Prop :=
  w.includeSummary = true → Count.exactSum s.sampleCounts < UInt64.size

/-- The depth is looked at first and then the summary, both before anything is written. -/
theorem write_cases (w : Writer) (s : Store) (deflate : List UInt8 → List UInt8) :
    (∃ f, s.tooDeep? = some f ∧ w.write s deflate = .fail (.tooDeep f.name f.inlineDepth)) ∨
    (s.tooDeep? = none ∧ ¬w.Sums s ∧ w.write s deflate = .fail (.summary .countOverflow)) ∨
    (s.tooDeep? = none ∧ w.Sums s ∧ (w.write s deflate).Fits w.version.number
      (¬(w.version = .fixed ∧ s.Oversized w.includeSummary))) := by
  have hsize : UInt64.size = Count.limit + 1 := rfl
  unfold write Sums
  rw [← Store.fitsStore_iff]
  cases s.tooDeep? with
  | some f => exact .inl ⟨f, rfl, rfl⟩
  | none =>
    refine .inr ?_
    cases hsummary : w.includeSummary with
    | false =>
      have hfits := fits_writeProfile w.version w.compressNames s none (fun _ h => (nomatch h))
        deflate
      exact .inr ⟨rfl, fun h => (nomatch h), hfits⟩
    | true =>
      rw [Store.summary_eq, hsize]
      by_cases hsum : Count.exactSum s.sampleCounts ≤ Count.limit
      · have hvalid : ∀ cutoff ∈ defaultCutoffs, cutoff.toNat ≤ cutoffScale := by
          simp [defaultCutoffs, cutoffScale]
        obtain ⟨x, hx, -⟩ := Summary.ofCounts_of_fits s.entryCounts hsum hvalid
        have hfits := fits_writeProfile w.version w.compressNames s (some x)
          (fun y hy => by rw [Store.summary_eq, hx, Option.some.inj hy]) deflate
        rw [hx]
        exact .inr ⟨rfl, fun _ => Nat.lt_succ_of_le hsum, hfits⟩
      · rw [Summary.ofCounts_eq_countOverflow_iff.2 (Nat.lt_of_not_le hsum)]
        exact .inl ⟨rfl, fun h => hsum (Nat.le_of_lt_succ (h rfl)), rfl⟩

theorem tooDeep?_of_write {name : String} {depth : Nat}
    (h : (w.write s deflate).error? = some (.tooDeep name depth)) : s.tooDeep?.isSome := by
  obtain ⟨f, hf, -⟩ | ⟨-, -, hwrite⟩ | ⟨-, -, ⟨-, hnone⟩ | ⟨-, field, hlarge⟩⟩ :=
    write_cases w s deflate
  · rw [hf, Option.isSome_some]
  · rw [hwrite] at h
    cases h
  · rw [hnone] at h
    cases h
  · rw [hlarge] at h
    cases h

/-- A writer fails for the first function in the order of the names that has too long a chain of
callees; otherwise for an overflow if the exact sum of all counts passes 64 bits and a summary is
written; otherwise, in version 1 alone, for a length of more than 32 bits; and for nothing else, so
no name is ever missed in the table. In the first two cases nothing has been written. -/
theorem error_of_write (w : Writer) (s : Store) (deflate : List UInt8 → List UInt8) :
    (∀ name depth, (w.write s deflate).error? = some (.tooDeep name depth) ↔
      ∃ f, s.IsFirstTooDeep f ∧ name = f.name ∧ depth = f.height) ∧
    (∀ e, (w.write s deflate).error? = some (.summary e) ↔
      s.Shallow ∧ ¬w.Sums s ∧ e = .countOverflow) ∧
    ((∃ version field, (w.write s deflate).error? = some (.tooLarge version field)) ↔
      s.Shallow ∧ w.Sums s ∧ w.version = .fixed ∧ s.Oversized w.includeSummary) ∧
    ((w.write s deflate).error? = none ↔
      s.Shallow ∧ w.Sums s ∧ ¬(w.version = .fixed ∧ s.Oversized w.includeSummary)) ∧
    (¬(s.Shallow ∧ w.Sums s) → (w.write s deflate).bytes = []) ∧
    (∀ version field, (w.write s deflate).error? = some (.tooLarge version field) →
      version = 1) ∧
    ∀ name, (w.write s deflate).error? ≠ some (.unlistedName name) := by
  simp only [Store.shallow_iff, ← Store.tooDeep?_eq_some_iff]
  obtain ⟨f, hdeep, hwrite⟩ | ⟨hdeep, hsums, hwrite⟩ | ⟨hdeep, hsums, hfits⟩ :=
    write_cases w s deflate
  · simpa [hdeep, hwrite, Output.fail] using fun name depth => and_congr eq_comm eq_comm
  · simpa [hdeep, hsums, hwrite, Output.fail] using fun e => eq_comm
  · rcases hfits with ⟨hroom, herror⟩ | ⟨hroom, field, herror⟩
    · simpa [hdeep, hsums, herror] using hroom
    · obtain ⟨hversion, hover⟩ := not_not.1 hroom
      simp [hdeep, hsums, herror, hversion, hover, Version.number]

end Binary.Writer

end SamplingProfile
