-- Whatever bytes are read as a profile, in one form or the other, the store that comes of them is
-- legal: readers give each callee a place under its own name, and both count the levels down to
-- the same limit.
import SamplingProfile.Intake
import SamplingProfile.Proofs.Binary.Trees
import SamplingProfile.Proofs.Binary.Sections
import SamplingProfile.Proofs.Store.LegalTrees
import SamplingProfile.Proofs.Text.Reading

namespace SamplingProfile

/-! ## What a reader makes -/

namespace Reader

variable {α β κ : Type} {P : α → Prop} {Q : β → Prop}

/-- Whatever bytes the reader takes, what it makes of them has the property. -/
def Makes (r : Reader α) (P : α → Prop) : Prop := ∀ span a rest, r span = .ok (a, rest) → P a

theorem makes_pure {a : α} (h : P a) : Makes (pure a) P := by
  intro span b rest hr
  cases hr
  exact h

theorem makes_failAt (span : Span) (problem : Problem) : Makes (failAt span problem) P :=
  fun _ _ _ hr => nomatch hr

theorem Makes.bind {r : Reader α} {f : α → Reader β} (hr : r.Makes P)
    (hf : ∀ a, P a → (f a).Makes Q) : (r >>= f).Makes Q := by
  intro span b rest h
  obtain ⟨a, middle, ha, hb⟩ := bind_eq_ok.1 h
  exact hf a (hr span a middle ha) middle b rest hb

/-- What was read before may be anything. -/
theorem makes_bind {r : Reader α} {f : α → Reader β} (hf : ∀ a, (f a).Makes Q) :
    (r >>= f).Makes Q := by
  intro span b rest h
  obtain ⟨a, middle, -, hb⟩ := bind_eq_ok.1 h
  exact hf a middle b rest hb

theorem Makes.within {r : Reader α} (hr : r.Makes P) (part : Part) : (within part r).Makes P :=
  fun span a rest h => hr span a rest (within_eq_ok.1 h)

theorem makes_distinct [DecidableEq κ] {r : Reader (κ × β)} {P : κ × β → Prop} (hr : r.Makes P)
    (problem : Problem) (n : Nat) (met : List κ) :
    (distinct problem r n met).Makes fun entries => ∀ e ∈ entries, P e := by
  induction n generalizing met with
  | zero => exact makes_pure fun e he => nomatch he
  | succ n ih =>
    refine makes_bind fun span => hr.bind fun entry hentry => ?_
    split
    · exact makes_bind fun _ => (ih _).bind fun rest hrest =>
        makes_pure (List.forall_mem_cons.2 ⟨hentry, hrest⟩)
    · exact (ih _).bind fun rest hrest =>
        makes_pure (List.forall_mem_cons.2 ⟨hentry, hrest⟩)

end Reader

/-! ## Lists of entries -/

theorem Callees.mem_of_get?_ofList {entries : List (Callsite × FunctionProfile)} {site : Callsite}
    {c : FunctionProfile} (h : (ofList entries).get? site = some c) : (site, c) ∈ entries :=
  mem_of_get_foldl_insert (fun c e q => get?_insert c e.1 q e.2) get?_empty h

/-- A node is legal with the callees of a list that are legal with fewer levels. -/
theorem FunctionProfile.legal_ofList (body : Body) {levels : Nat}
    {entries : List (Callsite × FunctionProfile)}
    (h : ∀ e ∈ entries, e.1.callee = e.2.name ∧ ∃ below < levels, e.2.Legal below) :
    ({ body with callees := .ofList entries } : FunctionProfile).Legal levels := by
  refine legal_iff.2 fun site c hc => ?_
  exact h (site, c) (Callees.mem_of_get?_ofList hc)

theorem Store.Legal.foldl {step : Store → FunctionProfile → Store}
    (hstep : ∀ s f, s.Legal → f.Legal maxInlineDepth → (step s f).Legal)
    {fs : List FunctionProfile} (h : ∀ f ∈ fs, f.Legal maxInlineDepth) {s : Store}
    (hs : s.Legal) : (fs.foldl step s).Legal := by
  induction fs generalizing s with
  | nil => exact hs
  | cons f fs ih =>
    refine ih (fun g hg => h g (List.mem_cons_of_mem f hg)) ?_
    exact hstep s f hs (h f List.mem_cons_self)

/-! ## The binary form -/

namespace Binary.Layout

open Reader

variable (l : Layout) (table : NameArray)

/-- A function that is read with some levels left has fewer levels of callees. -/
theorem makes_readFunction (levels : Nat) :
    (l.readFunction table levels).Makes fun f => ∃ below < levels, f.Legal below := by
  induction levels with
  | zero => exact makes_bind fun span => makes_failAt span .inlinedTooDeep
  | succ levels ih =>
    have hcallee : (l.readCallee table levels).Makes fun e =>
        e.1.callee = e.2.name ∧ ∃ below < levels, e.2.Legal below :=
      makes_bind fun _ => ih.bind fun _ hc => makes_pure ⟨rfl, hc⟩
    rw [readFunction_succ]
    refine makes_bind fun body => makes_bind fun callsites => ?_
    refine (makes_distinct hcallee .duplicateCallsite callsites []).bind fun callees hall => ?_
    exact makes_pure ⟨levels, Nat.lt_succ_self levels, FunctionProfile.legal_ofList body hall⟩

theorem makes_readEntry : (l.readEntry table).Makes fun e => e.2.Legal maxInlineDepth := by
  refine ((makes_readFunction l table (maxInlineDepth + 1)).within .function).bind fun f hf => ?_
  obtain ⟨below, hlt, hlegal⟩ := hf
  exact makes_pure (hlegal.mono (Nat.le_of_lt_succ hlt))

theorem makes_readSections : l.readSections.Makes fun content => content.1.Legal := by
  refine makes_bind fun summary? => makes_bind fun table => makes_bind fun count => ?_
  refine (makes_distinct (makes_readEntry l table) .duplicateFunction count []).bind ?_
  intro functions hall
  refine makes_pure (Store.Legal.foldl (fun _ _ hs hf => hs.insert hf) ?_ Store.legal_empty)
  intro f hf
  obtain ⟨e, he, rfl⟩ := List.mem_map.1 hf
  exact hall e he

end Binary.Layout

theorem Profile.makes_readVersioned : readVersioned.Makes fun p => p.store.Legal := by
  refine Reader.makes_bind fun number => ?_
  split
  · exact (Binary.Layout.makes_readSections _).bind fun content h => Reader.makes_pure h
  · exact Reader.makes_bind fun span => Reader.makes_failAt span .unsupportedVersion

/-! ## The text form -/

namespace Text

/-- Lines add what is legal to a node: callees under the names that they begin with, on levels
that are left. -/
theorem Builds.legal {indent levels : Nat} {node f : FunctionProfile} {ls : List Line}
    (h : Builds indent levels node ls f) (hnode : node.Legal levels) : f.Legal levels := by
  induction h with
  | nil => exact hnode
  | sample _ _ _ _ ih => exact ih (hnode.congr rfl)
  | callee _ _ hcallee _ _ ihCallee ih =>
    have hlegal := ihCallee (FunctionProfile.legal_of_callees_eq rfl)
    exact ih (hnode.insert hlegal hcallee.name_eq.symm)

theorem BuildsStore.legal {s s' : Store} {ls : List Line} (h : BuildsStore s ls s')
    (hs : s.Legal) : s'.Legal := by
  induction h with
  | nil => exact hs
  | function _ _ hbody _ _ ih =>
    exact ih (hs.insert (hbody.legal (FunctionProfile.legal_of_callees_eq rfl)))

end Text

/-! ## Profiles -/

namespace Profile

theorem legal_of_ofText {bytes : List UInt8} {p : Profile} (h : Profile.ofText bytes = .ok p) :
    p.store.Legal := (Text.buildsStore_of_ofText h).legal Store.legal_empty

/-- Whatever bytes are a profile, its store is legal. -/
theorem legal_of_ofBytes {bytes : List UInt8} {p : Profile} (h : Profile.ofBytes bytes = .ok p) :
    p.store.Legal := by
  rcases sections_or_ofText h with ⟨tail, rest, -, hread, -⟩ | htext
  · exact makes_readVersioned _ _ _ hread
  · exact legal_of_ofText htext

end Profile

/-- Taking in any bytes leaves a legal store legal, whether they are a profile or not. -/
theorem Intake.legal_take {i : Intake} (hi : i.store.Legal) (bytes : List UInt8) :
    (i.take bytes).1.store.Legal := by
  unfold take
  cases h : Profile.ofBytes bytes with
  | error e => exact hi
  | ok p =>
    refine Store.Legal.foldl (fun s f hs hf => ?_)
      (Store.legal_iff.1 (Profile.legal_of_ofBytes h)) hi
    unfold takeFunction
    split
    · exact hs
    · exact hs.insert hf

end SamplingProfile
