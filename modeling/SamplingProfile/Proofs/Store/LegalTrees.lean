-- The trees that every part of the program keeps to: a callee is under its own name, and no chain
-- of callees is longer than a number of levels. Both are said here of the callees of one node,
-- so that whoever adds a callee answers only for that callee. Sampling and merging keep to it.
import SamplingProfile.Proofs.Store.OwnNames
import SamplingProfile.Store.Event
import SamplingProfile.Store.Merge

namespace SamplingProfile

/-- Every callee is under its own name, and no chain of callees is longer than `levels`. -/
def FunctionProfile.Legal (levels : Nat) (f : FunctionProfile) : Prop :=
  f.callees.forest.Named ∧ f.height ≤ levels

instance (levels : Nat) (f : FunctionProfile) : Decidable (f.Legal levels) :=
  inferInstanceAs (Decidable (_ ∧ _))

/-- Every function of the store has callees under their own names, and no chain of them is longer
than readers and writers take. -/
def Store.Legal (s : Store) : Prop := ∀ name f, s.get? name = some f → f.Legal maxInlineDepth

/-! ## One node -/

namespace Forest

/-- A callee of the first level is the first one or behind it. -/
theorem calleeAt?_cons_eq_some_iff {site q : Callsite} {body : Body} {inner rest : Forest}
    {c : FunctionProfile} (h : (cons site body inner rest).Ordered) :
    (cons site body inner rest).calleeAt? q h = some c ↔
      (q = site ∧ c = { body with callees := ⟨inner, h.2.1⟩ }) ∨
        rest.calleeAt? q h.2.2 = some c := by
  simp only [calleeAt?, ← Std.compare_eq_iff_eq (a := q)]
  cases hq : compare q site with
  | lt =>
    have hrest : rest.calleeAt? q h.2.2 = none :=
      calleeAt?_eq_none_of_lt h.2.2 fun s hs => Std.TransCmp.lt_trans hq (h.1 s hs)
    simp [hrest]
  | eq =>
    rw [Std.compare_eq_iff_eq] at hq
    subst hq
    simp [calleeAt?_eq_none_of_lt h.2.2 h.1, eq_comm]
  | gt => simp

/-- What holds of the callees of the first level holds of the first one and of those behind it. -/
theorem forall_calleeAt?_cons {site : Callsite} {body : Body} {inner rest : Forest}
    {p : Callsite → FunctionProfile → Prop} (h : (cons site body inner rest).Ordered) :
    (∀ q c, (cons site body inner rest).calleeAt? q h = some c → p q c) ↔
      p site { body with callees := ⟨inner, h.2.1⟩ } ∧
        ∀ q c, rest.calleeAt? q h.2.2 = some c → p q c := by
  simp only [calleeAt?_cons_eq_some_iff]
  constructor
  · intro hall
    exact ⟨hall site _ (.inl ⟨rfl, rfl⟩), fun q c hc => hall q c (.inr hc)⟩
  · rintro ⟨hfirst, hrest⟩ q c (⟨rfl, rfl⟩ | hc)
    · exact hfirst
    · exact hrest q c hc

/-- A forest is legal when each callee of the first level is. -/
theorem legal_iff {f : Forest} (h : f.Ordered) {levels : Nat} :
    f.Named ∧ f.height ≤ levels ↔
      ∀ site c, f.calleeAt? site h = some c →
        site.callee = c.name ∧ ∃ below < levels, c.Legal below := by
  induction f with
  | nil =>
    constructor
    · intro _ site c hc
      cases hc
    · exact fun _ => ⟨trivial, Nat.zero_le _⟩
  | cons site body inner rest _ ih =>
    rw [forall_calleeAt?_cons h, ← ih h.2.2]
    constructor
    · rintro ⟨⟨hname, hinner, hrest⟩, hheight⟩
      simp only [height] at hheight
      exact ⟨⟨hname, inner.height, by omega, hinner, Nat.le_refl _⟩, hrest, by omega⟩
    · rintro ⟨⟨hname, below, hlt, hinner, hheight⟩, hrest, hbeside⟩
      have hle : inner.height ≤ below := hheight
      refine ⟨⟨hname, hinner, hrest⟩, ?_⟩
      simp only [height]
      omega

end Forest

namespace FunctionProfile

variable {f own other : FunctionProfile} {levels : Nat}

/-- A function is legal when each of its callees is under its own name and legal with fewer
levels. -/
theorem legal_iff : f.Legal levels ↔
    ∀ site c, f.callee? site = some c →
      site.callee = c.name ∧ ∃ below < levels, c.Legal below :=
  Forest.legal_iff f.callees.ordered

theorem Legal.mono {more : Nat} (h : f.Legal levels) (hle : levels ≤ more) : f.Legal more :=
  ⟨h.1, Nat.le_trans h.2 hle⟩

/-- A function without callees is legal. -/
theorem legal_of_callees_eq (h : f.callees = ∅) : f.Legal levels := by
  refine legal_iff.2 fun site c hc => ?_
  rw [callee?, h, Callees.get?_empty] at hc
  cases hc

/-- What a node holds itself plays no part. -/
theorem Legal.congr {g : FunctionProfile} (h : f.Legal levels) (hg : g.callees = f.callees) :
    g.Legal levels := by
  unfold Legal height at h ⊢
  rwa [hg]

/-- A callee that is put under its own name is legal with one level less. -/
theorem Legal.insert {c : FunctionProfile} {site : Callsite} (h : f.Legal (levels + 1))
    (hc : c.Legal levels) (hname : site.callee = c.name) :
    ({ f with callees := f.callees.insert site c } : FunctionProfile).Legal (levels + 1) := by
  refine legal_iff.2 fun q d hd => ?_
  have hget := Callees.get?_insert f.callees site q c
  rw [callee?, hget] at hd
  by_cases hq : q = site
  · rw [if_pos hq] at hd
    cases hd
    rw [hq]
    exact ⟨hname, levels, Nat.lt_succ_self levels, hc⟩
  · rw [if_neg hq] at hd
    exact legal_iff.1 h q d hd

/-! ## Sampling -/

theorem name_editAt (edit : Tally → Tally) (f : FunctionProfile) (frame : Frame)
    (inner : List Frame) : (f.editAt edit frame inner).name = f.name := by
  cases inner <;> rfl

/-- A stack makes callees only as deep as it has frames above the first. -/
theorem Legal.editAt (edit : Tally → Tally) {frame : Frame} {inner : List Frame}
    (h : f.Legal levels) (hlen : inner.length ≤ levels) :
    (f.editAt edit frame inner).Legal levels := by
  induction inner generalizing f frame levels with
  | nil => exact h.congr rfl
  | cons callee inner ih =>
    rw [List.length_cons] at hlen
    obtain ⟨levels, rfl⟩ : ∃ k, levels = k + 1 := ⟨levels - 1, by omega⟩
    have hnode : ∀ node?, f.callee? ⟨frame.location, callee.function⟩ = node? →
        (node?.getD (ofFrame callee)).Legal levels ∧
          (node?.getD (ofFrame callee)).name = callee.function := by
      intro node? hget
      cases node? with
      | none => exact ⟨legal_of_callees_eq rfl, rfl⟩
      | some c =>
        obtain ⟨hname, below, hlt, hc⟩ := legal_iff.1 h _ c hget
        exact ⟨hc.mono (by omega), hname.symm⟩
    obtain ⟨hlegal, hname⟩ := hnode _ rfl
    refine h.insert (ih hlegal (by omega)) ?_
    exact hname.symm.trans (name_editAt edit _ callee inner).symm

/-! ## Merging -/

theorem Legal.scale (weight : Count) (h : f.Legal levels) : (f.scale weight).Legal levels := by
  induction levels using Nat.strongRecOn generalizing f with
  | _ levels ih =>
    refine legal_iff.2 fun site c hc => ?_
    have hscale : (f.callee? site).map (FunctionProfile.scale weight) = some c := by
      rw [← hc]
      exact (Callees.get?_scale weight f.callees site).symm
    obtain ⟨d, hd, rfl⟩ := Option.map_eq_some_iff.1 hscale
    obtain ⟨hname, below, hlt, hlegal⟩ := legal_iff.1 h site d hd
    exact ⟨hname, below, hlt, ih below hlt hlegal⟩

theorem Legal.weighted (weight : Count) (h : f.Legal levels) :
    (f.weighted weight).Legal levels := by
  unfold FunctionProfile.weighted
  split
  · exact h
  · exact h.scale weight

/-- Two legal trees are joined to a legal one: a callee that both have is joined itself. -/
theorem Legal.merge (mode : Mode) (weight : Count) (h : own.Legal levels)
    (hother : other.Legal levels) : (own.merge mode weight other).Legal levels := by
  induction levels using Nat.strongRecOn generalizing own other with
  | _ levels ih =>
    refine legal_iff.2 fun site c hc => ?_
    rw [callee?_merge] at hc
    cases hd : other.callee? site with
    | none =>
      rw [hd] at hc
      exact legal_iff.1 h site c hc
    | some d =>
      obtain ⟨hname, below, hlt, hlegal⟩ := legal_iff.1 hother site d hd
      rw [hd] at hc
      cases ho : own.callee? site with
      | none =>
        rw [ho] at hc
        cases hc
        rw [name_weighted]
        exact ⟨hname, below, hlt, hlegal.weighted weight⟩
      | some o =>
        obtain ⟨hname', below', hlt', hlegal'⟩ := legal_iff.1 h site o ho
        rw [ho] at hc
        cases hc
        rw [name_merge]
        -- the deeper of the two bounds both
        refine ⟨hname', max below below', by omega, ih _ (by omega) ?_ ?_⟩
        · exact hlegal'.mono (Nat.le_max_right below below')
        · exact hlegal.mono (Nat.le_max_left below below')

end FunctionProfile

/-! ## Stores -/

namespace Store

variable {s other : Store}

theorem legal_iff : s.Legal ↔ ∀ f ∈ s.toList, f.Legal maxInlineDepth := by
  constructor
  · intro h f hf
    exact h f.name f (mem_toList_iff.1 hf)
  · intro h name f hf
    exact h f (mem_toList_iff.2 (by rwa [name_of_get? hf]))

theorem Legal.calleesNamed (h : s.Legal) : s.CalleesNamed := fun f hf => (legal_iff.1 h f hf).1

/-- What keeps a store from being written is a chain of callees that is too long. -/
theorem Legal.tooDeep?_eq_none (h : s.Legal) : s.tooDeep? = none :=
  tooDeep?_eq_none_iff.2 fun f hf => (legal_iff.1 h f hf).2

theorem legal_empty : (∅ : Store).Legal := by
  intro name f hf
  rw [get?_empty] at hf
  cases hf

theorem Legal.insert {f : FunctionProfile} (h : s.Legal) (hf : f.Legal maxInlineDepth) :
    (s.insert f).Legal := by
  intro name g hg
  rw [get?_insert] at hg
  split at hg
  · cases hg
    exact hf
  · exact h name g hg

theorem Legal.editAt? {s' : Store} {name : String} {stack : List Frame} {edit : Tally → Tally}
    (h : s.Legal) (hs : s.editAt? name stack edit = some s') : s'.Legal := by
  unfold Store.editAt? at hs
  split at hs
  · rename_i f frame inner hf _
    split at hs
    · rename_i hlen
      cases hs
      exact h.insert ((h name f hf).editAt edit hlen)
    · cases hs
  · cases hs

/-- A report leaves a legal store legal, whether it is taken or refused. -/
theorem Legal.record (h : s.Legal) (e : Event) : (s.record e).Legal := by
  unfold Store.record
  cases hs : s.record? e with
  | none => exact h
  | some s' =>
    show s'.Legal
    cases e with
    | register name =>
      cases hs
      split
      · exact h
      · exact h.insert (FunctionProfile.legal_of_callees_eq rfl)
    | entry name count mode =>
      obtain ⟨f, hf, rfl⟩ := Option.map_eq_some_iff.1 hs
      exact h.insert ((h name f hf).congr rfl)
    | sample name stack count mode => exact h.editAt? hs
    | target name stack callee count => exact h.editAt? hs

theorem Legal.mergeWeighted (mode : Mode) (weight : Count) (h : s.Legal) (hother : other.Legal) :
    (s.mergeWeighted mode weight other).Legal := by
  intro name f hf
  rw [get?_mergeWeighted] at hf
  cases hg : other.get? name with
  | none =>
    rw [hg] at hf
    exact h name f hf
  | some g =>
    rw [hg] at hf
    cases ho : s.get? name with
    | none =>
      rw [ho] at hf
      cases hf
      exact (hother name g hg).weighted weight
    | some own =>
      rw [ho] at hf
      cases hf
      exact (h name own ho).merge mode weight (hother name g hg)

theorem Legal.mergeAll (mode : Mode) {inputs : List (Count × Store)}
    (h : ∀ input ∈ inputs, input.2.Legal) : (mergeAll mode inputs).Legal := by
  have hfold : ∀ (inputs : List (Count × Store)) (s : Store), s.Legal →
      (∀ input ∈ inputs, input.2.Legal) →
      (inputs.foldl (fun s input => s.mergeWeighted mode input.1 input.2) s).Legal := by
    intro inputs
    induction inputs with
    | nil => exact fun _ hs _ => hs
    | cons input inputs ih =>
      intro s hs hall
      refine ih _ (hs.mergeWeighted mode input.1 (hall input List.mem_cons_self)) ?_
      exact fun i hi => hall i (List.mem_cons_of_mem input hi)
  exact hfold inputs ∅ legal_empty h

end Store

end SamplingProfile
