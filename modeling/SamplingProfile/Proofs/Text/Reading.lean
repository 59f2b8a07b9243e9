-- What one line does when a text profile is read: it adds a location or a callee to a node, or it
-- begins a function. Each of the two loops over lines is opened here once, in both directions, and
-- told as what its lines do one after the other. What is shown of reading is an induction on that.
import SamplingProfile.Profile
import SamplingProfile.Proofs.Text.LineParts
import SamplingProfile.Text.Read

namespace SamplingProfile.Text

theorem deeper_subset (indent : Nat) (ls : List Line) : deeper indent ls ⊆ ls :=
  (List.takeWhile_prefix _).subset

theorem behind_subset (indent : Nat) (ls : List Line) : behind indent ls ⊆ ls :=
  (List.dropWhile_suffix _).subset

theorem deeper_append_behind (indent : Nat) (ls : List Line) :
    deeper indent ls ++ behind indent ls = ls := List.takeWhile_append_dropWhile

theorem lt_indent_of_mem_deeper {indent : Nat} {ls : List Line} {l : Line}
    (h : l ∈ deeper indent ls) : indent < l.indent := by
  simpa using List.all_eq_true.1 List.all_takeWhile l h

/-! ## The lines of a body -/

/-- The node with one more location, as a line of samples adds it. -/
def addSamples (node : FunctionProfile) (location : Location) (count : Count)
    (targets : List (String × Count)) : FunctionProfile :=
  { node with
    samples := node.samples.insert location
      { count, instructions := 1, targets := .ofList targets } }

/-- The node with one more callee. -/
def addCallee (node : FunctionProfile) (site : Callsite) (callee : FunctionProfile) :
    FunctionProfile :=
  { node with callees := node.callees.insert site callee }

/-- The indent that all lines of a body must have, which is that of the first one. -/
def bodyIndent (lines : List Line) : Nat := (lines.head?.map Line.indent).getD 0

theorem lt_bodyIndent_deeper {indent : Nat} {ls : List Line} (h : deeper indent ls ≠ []) :
    indent < bodyIndent (deeper indent ls) := by
  obtain ⟨l, rest, hcons⟩ := List.exists_cons_of_ne_nil h
  rw [hcons]
  exact lt_indent_of_mem_deeper (hcons ▸ List.mem_cons_self)

theorem readItems_nil (indent levels : Nat) (node : FunctionProfile) :
    readItems indent levels node [] = .ok node := by
  rw [readItems]

/-- A first line that is read is indented as the body is, and says either a location that is new
or a callee that is new, whose body is read from the lines below it. -/
theorem readItems_cons_iff {indent levels : Nat} {node f : FunctionProfile} {line : Line}
    {rest : List Line} :
    readItems indent levels node (line :: rest) = .ok f ↔
      line.indent = indent ∧
      ((∃ location count targets,
          readBodyLine line.content = .ok (.sample location count targets) ∧
          node.samples.get? location = none ∧
          readItems indent levels (addSamples node location count targets) rest = .ok f) ∨
        ∃ site below callee, levels = below + 1 ∧
          readBodyLine line.content = .ok (.callee site) ∧
          readItems (bodyIndent (deeper indent rest)) below (.ofName site.callee)
            (deeper indent rest) = .ok callee ∧
          node.callee? site = none ∧
          readItems indent levels (addCallee node site callee) (behind indent rest) = .ok f) := by
  rw [readItems]
  constructor
  · intro h
    split at h
    · cases h
    · rename_i hindent
      obtain ⟨said, hline, hsaid⟩ := except_bind_eq_ok.1 h
      refine ⟨not_not.1 hindent, ?_⟩
      cases said with
      | sample location count targets =>
        dsimp only at hsaid
        split at hsaid
        · cases hsaid
        · rename_i hnew
          exact .inl ⟨location, count, targets, hline, Option.not_isSome_iff_eq_none.1 hnew, hsaid⟩
      | callee site =>
        cases levels with
        | zero => cases hsaid
        | succ below =>
          obtain ⟨callee, hcallee, hmore⟩ := except_bind_eq_ok.1 hsaid
          split at hmore
          · cases hmore
          · rename_i hnew
            exact .inr ⟨site, below, callee, rfl, hline, hcallee,
              Option.not_isSome_iff_eq_none.1 hnew, hmore⟩
  · rintro ⟨hindent, ⟨location, count, targets, hline, hnew, h⟩
      | ⟨site, below, callee, rfl, hline, hcallee, hnew, h⟩⟩
    · rw [if_neg (not_not_intro hindent)]
      refine except_bind_eq_ok.2 ⟨_, hline, ?_⟩
      dsimp only
      rw [SortedMap.contains, hnew]
      exact h
    · rw [if_neg (not_not_intro hindent)]
      refine except_bind_eq_ok.2 ⟨_, hline, except_bind_eq_ok.2 ⟨callee, hcallee, ?_⟩⟩
      rw [hnew]
      exact h

/-- Lines that make one node of another: all are indented as far, and each of them says a location
that is new, or a callee that is new, whose body is read from the lines that are indented deeper. -/
inductive Builds : Nat → Nat → FunctionProfile → List Line → FunctionProfile → Prop
  | nil {indent levels : Nat} {node : FunctionProfile} : Builds indent levels node [] node
  | sample {indent levels : Nat} {node f : FunctionProfile} {line : Line} {rest : List Line}
    {location : Location} {count : Count} {targets : List (String × Count)}
    (hindent : line.indent = indent)
    (hline : readBodyLine line.content = .ok (.sample location count targets))
    (hnew : node.samples.get? location = none)
    (hrest : Builds indent levels (addSamples node location count targets) rest f) :
    Builds indent levels node (line :: rest) f
  | callee {indent levels : Nat} {node callee f : FunctionProfile} {line : Line}
    {rest : List Line} {site : Callsite} (hindent : line.indent = indent)
    (hline : readBodyLine line.content = .ok (.callee site))
    (hcallee : Builds (bodyIndent (deeper indent rest)) levels (.ofName site.callee)
      (deeper indent rest) callee)
    (hnew : node.callee? site = none)
    (hrest : Builds indent (levels + 1) (addCallee node site callee) (behind indent rest) f) :
    Builds indent (levels + 1) node (line :: rest) f

theorem readItems_eq_ok_iff {indent levels : Nat} {node f : FunctionProfile} {ls : List Line} :
    readItems indent levels node ls = .ok f ↔ Builds indent levels node ls f := by
  constructor
  · intro h
    -- the lines of a callee are taken from those behind, so on their number
    induction hn : ls.length using Nat.strongRecOn generalizing indent levels node f ls with
    | _ n ih =>
      cases ls with
      | nil =>
        rw [readItems_nil] at h
        cases h
        exact .nil
      | cons line rest =>
        rw [List.length_cons] at hn
        obtain ⟨hindent, ⟨location, count, targets, hline, hnew, hrest⟩ |
          ⟨site, below, callee, rfl, hline, hcallee, hnew, hrest⟩⟩ := readItems_cons_iff.1 h
        · exact .sample hindent hline hnew (ih rest.length (by omega) hrest rfl)
        · have hdeeper := length_deeper_le indent rest
          have hbehind := length_behind_le indent rest
          exact .callee hindent hline (ih _ (by omega) hcallee rfl) hnew
            (ih _ (by omega) hrest rfl)
  · intro h
    induction h with
    | nil => exact readItems_nil ..
    | sample hindent hline hnew _ ih =>
      exact readItems_cons_iff.2 ⟨hindent, .inl ⟨_, _, _, hline, hnew, ih⟩⟩
    | callee hindent hline _ hnew _ ihCallee ih =>
      exact readItems_cons_iff.2 ⟨hindent, .inr ⟨_, _, _, rfl, hline, ihCallee, hnew, ih⟩⟩

theorem Builds.name_eq {indent levels : Nat} {node f : FunctionProfile} {ls : List Line}
    (h : Builds indent levels node ls f) : f.name = node.name := by
  induction h with
  | nil => rfl
  | sample _ _ _ _ ih => exact ih
  | callee _ _ _ _ _ _ ih => exact ih

/-! ## Functions -/

theorem readFunctions_nil (s : Store) : readFunctions s [] = .ok s := by
  rw [readFunctions]

/-- A first line that is read is not indented and says the name of a function that is new. -/
theorem readFunctions_cons_iff {s s' : Store} {line : Line} {rest : List Line} :
    readFunctions s (line :: rest) = .ok s' ↔
      line.indent = 0 ∧ ∃ name total entryCount f,
        readFunctionLine line.content = .ok (name, total, entryCount) ∧
        readItems (bodyIndent (deeper 0 rest)) maxInlineDepth
          { FunctionProfile.ofName name with entryCount := UInt64.ofNat entryCount }
          (deeper 0 rest) = .ok f ∧
        s.get? f.name = none ∧ readFunctions (s.insert f) (behind 0 rest) = .ok s' := by
  rw [readFunctions]
  constructor
  · intro h
    split at h
    · cases h
    · rename_i hindent
      obtain ⟨⟨name, total, entryCount⟩, hline, hsaid⟩ := except_bind_eq_ok.1 h
      obtain ⟨f, hbody, hmore⟩ := except_bind_eq_ok.1 hsaid
      split at hmore
      · cases hmore
      · rename_i hnew
        exact ⟨not_not.1 hindent, name, total, entryCount, f, hline, hbody,
          Option.not_isSome_iff_eq_none.1 hnew, hmore⟩
  · rintro ⟨hindent, name, total, entryCount, f, hline, hbody, hnew, h⟩
    have hfree : s.contains f.name = false := congrArg Option.isSome hnew
    rw [if_neg (not_not_intro hindent)]
    refine except_bind_eq_ok.2 ⟨_, hline, except_bind_eq_ok.2 ⟨f, hbody, ?_⟩⟩
    rw [hfree]
    exact h

/-- Lines that make one store of another: those that are not indented name functions that are new,
and those below each are its body. -/
inductive BuildsStore : Store → List Line → Store → Prop
  | nil {s : Store} : BuildsStore s [] s
  | function {s s' : Store} {line : Line} {rest : List Line} {name : String}
    {total entryCount : Nat} {f : FunctionProfile} (hindent : line.indent = 0)
    (hline : readFunctionLine line.content = .ok (name, total, entryCount))
    (hbody : Builds (bodyIndent (deeper 0 rest)) maxInlineDepth
      { FunctionProfile.ofName name with entryCount := UInt64.ofNat entryCount }
      (deeper 0 rest) f)
    (hnew : s.get? f.name = none) (hrest : BuildsStore (s.insert f) (behind 0 rest) s') :
    BuildsStore s (line :: rest) s'

theorem readFunctions_eq_ok_iff {s s' : Store} {ls : List Line} :
    readFunctions s ls = .ok s' ↔ BuildsStore s ls s' := by
  constructor
  · intro h
    induction hn : ls.length using Nat.strongRecOn generalizing s ls with
    | _ n ih =>
      cases ls with
      | nil =>
        rw [readFunctions_nil] at h
        cases h
        exact .nil
      | cons line rest =>
        rw [List.length_cons] at hn
        obtain ⟨hindent, name, total, entryCount, f, hline, hbody, hnew, hrest⟩ :=
          readFunctions_cons_iff.1 h
        have hbehind := length_behind_le 0 rest
        exact .function hindent hline (readItems_eq_ok_iff.1 hbody) hnew
          (ih _ (by omega) hrest rfl)
  · intro h
    induction h with
    | nil => exact readFunctions_nil _
    | function hindent hline hbody hnew _ ih =>
      exact readFunctions_cons_iff.2
        ⟨hindent, _, _, _, _, hline, readItems_eq_ok_iff.2 hbody, hnew, ih⟩

/-- A text is read as the store that its lines build. -/
theorem read_eq_ok_iff {bytes : List UInt8} {s : Store} :
    Text.read bytes = .ok s ↔ BuildsStore ∅ (lines (skipHeader (.ofBytes bytes))) s :=
  readFunctions_eq_ok_iff

theorem buildsStore_of_ofText {bytes : List UInt8} {p : Profile}
    (h : Profile.ofText bytes = .ok p) :
    BuildsStore ∅ (lines (skipHeader (.ofBytes bytes))) p.store := by
  obtain ⟨s, hs, hp⟩ := except_bind_eq_ok.1 h
  cases hp
  exact read_eq_ok_iff.1 hs

end SamplingProfile.Text
