-- Callees are written with the location of their call, and not with the name that they are kept
-- under: a reader gives each of them the name that it has itself. So a tree comes back with its
-- callees under their own names, unless two callees of one name are called from one location.
-- Such a tree is refused, however deep the two lie.
import SamplingProfile.Proofs.Binary.Parts
import SamplingProfile.Proofs.Store.OwnNames

namespace SamplingProfile

namespace Binary.Layout

open Reader

variable (l : Layout) {table : NameTable}

/-! ## One node -/

/-- Reads a callee behind the location of its call. -/
def readCallee (names : NameArray) (levels : Nat) : Reader (Callsite × FunctionProfile) := do
  let packed ← l.readWord
  let callee ← l.readFunction names levels
  return (⟨⟨packed⟩, callee.name⟩, callee)

theorem readFunction_succ (names : NameArray) (levels : Nat) :
    l.readFunction names (levels + 1) = (do
      let body ← l.readBody names
      let callsites ← l.readSmall
      let callees ← distinct .duplicateCallsite (l.readCallee names levels) callsites []
      return { body with callees := .ofList callees }) := rfl

/-- Writes a node and the callees below it. -/
def writeNode (table : NameTable) (body : Body) (inner : Forest) : Output :=
  l.writeBody table body
    ++ (l.writeSmall .callsiteCount inner.sites.length ++ l.writeForest table inner)

theorem writeFunction_eq (f : FunctionProfile) :
    l.writeFunction table f = l.writeNode table f.toBody f.callees.forest := by
  simp [writeFunction, writeNode]

theorem writeForest_cons (site : Callsite) (body : Body) (inner rest : Forest) :
    l.writeForest table (.cons site body inner rest)
      = l.writeSmall .offset site.location.packed.toNat ++ l.writeNode table body inner
          ++ l.writeForest table rest := by
  simp [writeForest, writeNode, Output.append_assoc]

/-- Every callee takes a byte or more. -/
theorem atLeast_writeForest (f : Forest) : (l.writeForest table f).AtLeast f.sites.length := by
  induction f with
  | nil => exact Output.atLeast_zero _
  | cons site body inner rest _ ih =>
    rw [writeForest_cons, Output.append_assoc, Forest.sites, List.length_cons, Nat.add_comm]
    exact (atLeast_writeSmall l .offset _).append (ih.append_right _)

theorem undoes_callsiteCount {inner : Forest} {rest : List UInt8}
    (h : l.writeForest table inner = ⟨rest, none⟩) (hlt : rest.length < UInt64.size) :
    l.readSmall.Undoes (l.writeSmall .callsiteCount inner.sites.length) inner.sites.length := by
  have hle := atLeast_writeForest l inner rest h
  exact undoes_readSmall l .callsiteCount (Nat.lt_of_le_of_lt hle hlt)

theorem undoes_readCallee (location : Location) {names : NameArray} {levels : Nat} {o : Output}
    {callee : FunctionProfile} (h : (l.readFunction names levels).Undoes o callee) :
    (l.readCallee names levels).Undoes (l.writeSmall .offset location.packed.toNat ++ o)
      (⟨location, callee.name⟩, callee) := by
  apply (undoes_readWord l .offset location.packed).bind
  exact h.bind_pure rfl

theorem refuses_readCallee (location : Location) {names : NameArray} {levels : Nat} {o : Output}
    {p : Problem} (h : (l.readFunction names levels).Refuses o p) :
    (l.readCallee names levels).Refuses (l.writeSmall .offset location.packed.toNat ++ o) p := by
  apply Refuses.bind_right (undoes_readWord l .offset location.packed)
  exact h.bind_last _

variable (hlen : table.names.length < UInt64.size)
include hlen

theorem undoes_readNode (body : Body) {inner : Forest} {levels : Nat}
    (h : (distinct .duplicateCallsite (l.readCallee table.names.toArray levels)
      inner.sites.length []).Undoes (l.writeForest table inner) inner.underOwnNames) :
    (l.readFunction table.names.toArray (levels + 1)).Undoes (l.writeNode table body inner)
      { body with callees := .ofList inner.underOwnNames } := by
  rw [readFunction_succ]
  unfold writeNode
  apply (undoes_readBody l hlen body).bind
  apply Undoes.bind_of_rest fun rest hr hlt => undoes_callsiteCount l hr hlt
  exact h.bind_pure rfl

theorem refuses_readNode (body : Body) {inner : Forest} {levels : Nat} {p : Problem}
    (h : (distinct .duplicateCallsite (l.readCallee table.names.toArray levels)
      inner.sites.length []).Refuses (l.writeForest table inner) p) :
    (l.readFunction table.names.toArray (levels + 1)).Refuses (l.writeNode table body inner)
      p := by
  rw [readFunction_succ]
  unfold writeNode
  apply Refuses.bind_right (undoes_readBody l hlen body)
  apply Refuses.bind_right_of_rest fun rest hr hlt => undoes_callsiteCount l hr hlt
  exact h.bind_last _

/-! ## Trees -/

/-- The induction follows the forest: the callees below a node have one level less, and those
beside it one more callsite that was met. -/
theorem undoes_readCallees {f : Forest} (hf : f.Apart) {levels : Nat} (hl : f.height ≤ levels)
    {met : List Callsite} (hmet : ∀ site ∈ f.ownSites, site ∉ met) :
    (distinct .duplicateCallsite (l.readCallee table.names.toArray levels) f.sites.length
      met).Undoes (l.writeForest table f) f.underOwnNames := by
  induction f generalizing levels met with
  | nil => exact undoes_pure []
  | cons site body inner rest ihInner ihRest =>
    rcases hf with ⟨hnew, hinner, hrest⟩
    simp only [Forest.height] at hl
    obtain ⟨levels, rfl⟩ : ∃ k, levels = k + 1 := ⟨levels - 1, by omega⟩
    have hinnerHeight : inner.height ≤ levels := by omega
    have hrestHeight : rest.height ≤ levels + 1 := by omega
    have hnode := undoes_readNode l hlen body
      (ihInner hinner hinnerHeight fun _ _ => List.not_mem_nil)
    have hcallee := undoes_readCallee l site.location hnode
    rw [writeForest_cons]
    apply hcallee.distinct_cons (hmet _ List.mem_cons_self)
    apply ihRest hrest hrestHeight
    intro site' hsite' hin
    rcases List.mem_cons.1 hin with rfl | hin
    · exact hnew hsite'
    · exact hmet site' (List.mem_cons_of_mem _ hsite') hin

theorem refuses_readCallees {f : Forest} {levels : Nat} (hl : f.height ≤ levels)
    {met : List Callsite} (hf : ¬(f.Apart ∧ ∀ site ∈ f.ownSites, site ∉ met)) :
    (distinct .duplicateCallsite (l.readCallee table.names.toArray levels) f.sites.length
      met).Refuses (l.writeForest table f) .duplicateCallsite := by
  induction f generalizing levels met with
  | nil => exact absurd ⟨trivial, fun _ h => absurd h List.not_mem_nil⟩ hf
  | cons site body inner rest ihInner ihRest =>
    simp only [Forest.height] at hl
    obtain ⟨levels, rfl⟩ : ∃ k, levels = k + 1 := ⟨levels - 1, by omega⟩
    have hinnerHeight : inner.height ≤ levels := by omega
    have hrestHeight : rest.height ≤ levels + 1 := by omega
    rw [writeForest_cons]
    by_cases hinner : inner.Apart
    · have hnode := undoes_readNode l hlen body
        (undoes_readCallees l hlen hinner hinnerHeight fun _ _ => List.not_mem_nil)
      have hcallee := undoes_readCallee l site.location hnode
      by_cases hsite : ⟨site.location, body.name⟩ ∈ met
      · exact hcallee.refuses_distinct hsite _ _
      · apply Refuses.distinct_tail hcallee hsite
        apply ihRest hrestHeight
        rintro ⟨hrest, hfresh⟩
        apply hf
        refine ⟨⟨?_, hinner, hrest⟩, ?_⟩
        · intro hin
          exact hfresh _ hin List.mem_cons_self
        · intro site' hsite'
          rcases List.mem_cons.1 hsite' with rfl | hsite'
          · exact hsite
          · intro hin
            exact hfresh site' hsite' (List.mem_cons_of_mem _ hin)
    · have hinner' : ¬(inner.Apart ∧ ∀ site ∈ inner.ownSites, site ∉ []) := fun h => hinner h.1
      have hnode := refuses_readNode l hlen body (ihInner hinnerHeight hinner')
      exact (refuses_readCallee l site.location hnode).distinct_head _ _ _

end Binary.Layout

end SamplingProfile
