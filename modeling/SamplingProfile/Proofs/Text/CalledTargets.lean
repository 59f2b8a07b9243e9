-- What is kept of the functions that a line says were called. Its place in the store is told by
-- its indent: the nearest line above that is indented less is what it belongs to, and so on up to
-- a line that is not indented. There the line has an entry for each name on it, with the last count
-- of that name.
import Mathlib.Data.List.Dedup
import SamplingProfile.Proofs.Store.NameRules
import SamplingProfile.Proofs.Text.BodyLines
import SamplingProfile.Proofs.Text.Reading

namespace SamplingProfile

/-! ## One entry for each key -/

/-- A map that is built from a list has as many entries as there are keys in the list. -/
theorem SortedMap.size_ofList {κ β : Type} [Ord κ] [Std.TransOrd κ] [Std.LawfulEqOrd κ]
    [DecidableEq κ] (es : List (κ × β)) : (ofList es).size = (es.map Prod.fst).dedup.length := by
  have hkeys : (ofList es).keys.Perm (es.map Prod.fst).dedup := by
    refine (List.perm_ext_iff_of_nodup (nodup_keys _) (List.nodup_dedup _)).2 fun q => ?_
    rw [mem_keys_iff, get?_ofList, ← Option.isSome_iff_exists, isSome_lastUnder?_iff,
      List.mem_dedup]
  rw [← hkeys.length_eq]
  exact (List.length_map ..).symm

namespace Text

/-! ## Lines above -/

/-- The line that a line with an indent belongs to, the line that one belongs to, and so on, among
the lines above it, of which the nearest stands first. -/
def owners : Nat → List Line → List Line
  | _, [] => []
  | indent, l :: above =>
    if l.indent < indent then l :: owners l.indent above else owners indent above

/-- The least indent of a line and of those above it. -/
def reach (indent : Nat) (above : List Line) : Nat :=
  above.foldl (fun n l => min n l.indent) indent

theorem reach_append (indent : Nat) (near far : List Line) :
    reach indent (near ++ far) = reach (reach indent near) far := List.foldl_append

/-- Of lines further away only those are owners that are indented less than all nearer ones. -/
theorem owners_append (indent : Nat) (near far : List Line) :
    owners indent (near ++ far) = owners indent near ++ owners (reach indent near) far := by
  induction near generalizing indent with
  | nil => rfl
  | cons l near ih =>
    rw [List.cons_append, owners, owners]
    by_cases hl : l.indent < indent
    · have hreach : reach indent (l :: near) = reach l.indent near :=
        congrArg (reach · near) (Nat.min_eq_right (Nat.le_of_lt hl))
      rw [if_pos hl, if_pos hl, ih, hreach, List.cons_append]
    · have hreach : reach indent (l :: near) = reach indent near :=
        congrArg (reach · near) (Nat.min_eq_left (Nat.le_of_not_lt hl))
      rw [if_neg hl, if_neg hl, ih, hreach]

/-- Lines that are indented as far own nothing. -/
theorem owners_eq_nil {indent : Nat} {above : List Line} (h : ∀ l ∈ above, indent ≤ l.indent) :
    owners indent above = [] ∧ reach indent above = indent := by
  induction above with
  | nil => exact ⟨rfl, rfl⟩
  | cons l above ih =>
    rw [List.forall_mem_cons] at h
    have hreach : reach indent (l :: above) = reach indent above :=
      congrArg (reach · above) (Nat.min_eq_left h.1)
    rw [owners, if_neg (Nat.not_lt.2 h.1), hreach]
    exact ih h.2

section Above

variable {indent : Nat} {near : List Line}

theorem owners_append_of_le {far : List Line} (h : ∀ l ∈ far, reach indent near ≤ l.indent) :
    owners indent (near ++ far) = owners indent near ∧
      reach indent (near ++ far) = reach indent near := by
  obtain ⟨howners, hreach⟩ := owners_eq_nil h
  exact ⟨by rw [owners_append, howners, List.append_nil], by rw [reach_append, hreach]⟩

theorem owners_append_of_lt {l : Line} (h : l.indent < reach indent near) :
    owners indent (near ++ [l]) = owners indent near ++ [l] ∧
      reach indent (near ++ [l]) = l.indent := by
  refine ⟨?_, ?_⟩
  · rw [owners_append, owners, if_pos h, owners]
  · rw [reach_append]
    exact Nat.min_eq_right (Nat.le_of_lt h)

end Above

/-- Callers that say the callsites of a path, the last of them first. -/
def SayPath (callers : List Line) (path : List Callsite) : Prop :=
  List.Forall₂ (fun l site => readBodyLine l.content = .ok (.callee site)) callers path.reverse

theorem SayPath.append {callers : List Line} {path : List Callsite} (h : SayPath callers path)
    {line : Line} {site : Callsite} (hline : readBodyLine line.content = .ok (.callee site)) :
    SayPath (callers ++ [line]) (site :: path) := by
  rw [SayPath, List.reverse_cons]
  exact List.rel_append h (.cons hline .nil)

/-- Owners that say the path to a node: the last names the function, the others the callees. -/
def LeadTo (owners : List Line) (name : String) (path : List Callsite) : Prop :=
  ∃ callers header total entryCount, owners = callers ++ [header] ∧ header.indent = 0 ∧
    readFunctionLine header.content = .ok (name, total, entryCount) ∧ SayPath callers path

/-! ## What stays -/

section Trees

variable {node f : FunctionProfile}

/-- Everything that a node holds the other holds too. -/
structure Keeps (node f : FunctionProfile) : Prop where
  samples : ∀ location tally, node.samples.get? location = some tally →
    f.samples.get? location = some tally
  callees : ∀ site c, node.callee? site = some c → f.callee? site = some c

theorem Keeps.refl (node : FunctionProfile) : Keeps node node :=
  ⟨fun _ _ h => h, fun _ _ h => h⟩

theorem Keeps.trans {node f g : FunctionProfile} (h : Keeps node g) (h' : Keeps g f) :
    Keeps node f :=
  ⟨fun q t ht => h'.samples q t (h.samples q t ht),
    fun q c hc => h'.callees q c (h.callees q c hc)⟩

theorem keeps_addSamples {location : Location} (hnew : node.samples.get? location = none)
    (count : Count) (targets : List (String × Count)) :
    Keeps node (addSamples node location count targets) := by
  refine ⟨fun q tally hq => ?_, fun q c hc => hc⟩
  rw [addSamples, SortedMap.get?_insert, if_neg, hq]
  rintro rfl
  rw [hnew] at hq
  cases hq

theorem keeps_addCallee {site : Callsite} (hnew : node.callee? site = none)
    (callee : FunctionProfile) : Keeps node (addCallee node site callee) := by
  refine ⟨fun q tally hq => hq, fun q c hc => ?_⟩
  rw [addCallee, FunctionProfile.callee?, Callees.get?_insert, if_neg]
  · exact hc
  · rintro rfl
    rw [hnew] at hc
    cases hc

theorem Builds.keeps {indent levels : Nat} {ls : List Line} (h : Builds indent levels node ls f) :
    Keeps node f := by
  induction h with
  | nil => exact .refl _
  | sample _ _ hnew _ ih => exact (keeps_addSamples hnew _ _).trans ih
  | @callee _ _ _ callee _ _ _ _ _ _ _ hnew _ _ ih => exact (keeps_addCallee hnew callee).trans ih

end Trees

theorem BuildsStore.keeps {s s' : Store} {ls : List Line} (h : BuildsStore s ls s') {name : String}
    {f : FunctionProfile} (hf : s.get? name = some f) : s'.get? name = some f := by
  induction h with
  | nil => exact hf
  | function _ _ _ hnew _ ih =>
    refine ih ?_
    rw [Store.get?_insert, if_neg, hf]
    rintro rfl
    rw [hnew] at hf
    cases hf

/-! ## Where a line comes to stand -/

/-- A node holds what a line says. -/
def Shows (node : FunctionProfile) : BodyLine → Prop
  | .sample location count targets =>
    node.samples.get? location = some { count, instructions := 1, targets := .ofList targets }
  | .callee site => (node.callee? site).isSome

theorem shows_addSamples (node : FunctionProfile) (location : Location) (count : Count)
    (targets : List (String × Count)) :
    Shows (addSamples node location count targets) (.sample location count targets) := by
  rw [Shows, addSamples, SortedMap.get?_insert, if_pos rfl]

theorem callee?_addCallee (node : FunctionProfile) (site : Callsite) (callee : FunctionProfile) :
    (addCallee node site callee).callee? site = some callee := by
  rw [addCallee, FunctionProfile.callee?, Callees.get?_insert, if_pos rfl]

/-- One of two lists that were put together holds the line. -/
theorem append_eq_append_cons {α : Type} {xs ys above below : List α} {l : α}
    (h : xs ++ ys = above ++ l :: below) :
    (∃ rest, xs = above ++ l :: rest) ∨
      ∃ front, above = xs ++ front ∧ ys = front ++ l :: below := by
  rcases List.append_eq_append_iff.1 h with ⟨front, habove, hys⟩ | ⟨rest, hxs, hl⟩
  · exact .inr ⟨front, habove, hys⟩
  · cases rest with
    | nil => exact .inr ⟨[], by simpa using hxs.symm, by simpa using hl.symm⟩
    | cons b rest =>
      cases hl
      exact .inl ⟨rest, hxs⟩

section Place

variable {l : Line} {ls near above below : List Line} {f : FunctionProfile}

/-- A line in a body with the indent has come to stand in a tree: what the lines above lead to holds
what the line says. -/
def StandsBelow (l : Line) (above : List Line) (indent : Nat) (f : FunctionProfile) : Prop :=
  reach l.indent above = indent ∧ ∃ said path g, readBodyLine l.content = .ok said ∧
    SayPath (owners l.indent above) path ∧ f.nodeAt? path = some g ∧ Shows g said

theorem standsBelow_self {indent : Nat} {said : BodyLine} (hindent : l.indent = indent)
    (hline : readBodyLine l.content = .ok said) (hshows : Shows f said) :
    StandsBelow l [] indent f := ⟨hindent, said, [], f, hline, .nil, rfl, hshows⟩

/-- Lines further above that are not indented less change nothing. -/
theorem StandsBelow.append {indent : Nat} {far : List Line} (h : StandsBelow l near indent f)
    (hfar : ∀ x ∈ far, indent ≤ x.indent) : StandsBelow l (near ++ far) indent f := by
  obtain ⟨rfl, said, path, g, hline, hpath, hg, hshows⟩ := h
  obtain ⟨howners, hreach⟩ := owners_append_of_le hfar
  exact ⟨hreach, said, path, g, hline, howners ▸ hpath, hg, hshows⟩

/-- A line in the body of a callee stands below the callee. -/
theorem StandsBelow.callee {indent : Nat} {c : FunctionProfile} (h : StandsBelow l near indent c)
    {line : Line} {site : Callsite} (hlt : line.indent < indent)
    (hline : readBodyLine line.content = .ok (.callee site)) (hc : f.callee? site = some c) :
    StandsBelow l (near ++ [line]) line.indent f := by
  obtain ⟨rfl, said, path, g, hl, hpath, hg, hshows⟩ := h
  obtain ⟨howners, hreach⟩ := owners_append_of_lt hlt
  refine ⟨hreach, said, site :: path, g, hl, ?_, ?_, hshows⟩
  · rw [howners]
    exact hpath.append hline
  · exact FunctionProfile.nodeAt?_cons_eq_some_iff.2 ⟨c, hc, hg⟩

/-- Every line of a body comes to stand in the tree. -/
theorem Builds.standsBelow {indent levels : Nat} {node : FunctionProfile}
    (h : Builds indent levels node ls f) (hls : ls = above ++ l :: below) :
    StandsBelow l above.reverse indent f := by
  induction h generalizing above below with
  | nil => simp at hls
  | @sample indent _ node _ line _ location count targets hindent hline _ hrest ih =>
    cases above with
    | nil =>
      cases hls
      refine standsBelow_self hindent hline (hrest.keeps.samples location _ ?_)
      exact shows_addSamples node location count targets
    | cons first above =>
      obtain ⟨rfl, hmore⟩ := List.cons.inj hls
      rw [List.reverse_cons]
      exact (ih hmore).append (by simp [hindent])
  | @callee indent _ node callee f line rest site hindent hline _ _ hrest ihCallee ih =>
    have hcallee := hrest.keeps.callees site callee (callee?_addCallee node site callee)
    cases above with
    | nil =>
      cases hls
      exact standsBelow_self hindent hline (Option.isSome_iff_exists.2 ⟨callee, hcallee⟩)
    | cons first above =>
      obtain ⟨rfl, hmore⟩ := List.cons.inj hls
      rw [← deeper_append_behind indent rest] at hmore
      rw [List.reverse_cons]
      rcases append_eq_append_cons hmore with ⟨inner, hinner⟩ | ⟨front, rfl, hfront⟩
      · have hne : deeper indent rest ≠ [] := by simp [hinner]
        have hlt := lt_bodyIndent_deeper hne
        subst hindent
        exact (ihCallee hinner).callee hlt hline hcallee
      · rw [List.reverse_append, List.append_assoc]
        refine (ih hfront).append fun x hx => ?_
        rcases List.mem_append.1 hx with hx | hx
        · exact Nat.le_of_lt (lt_indent_of_mem_deeper (List.mem_reverse.1 hx))
        · rw [List.mem_singleton.1 hx, hindent]

/-- A line has come to stand in a store: the lines above lead from the name of a function to a node
that holds what the line says. -/
def StandsIn (l : Line) (above : List Line) (s : Store) : Prop :=
  reach l.indent above = 0 ∧ ∃ said name path g, readBodyLine l.content = .ok said ∧
    LeadTo (owners l.indent above) name path ∧ s.nodeAt? name path = some g ∧ Shows g said

/-- Every indented line comes to stand in the store. -/
theorem BuildsStore.standsIn {s s' : Store} (h : BuildsStore s ls s')
    (hls : ls = above ++ l :: below) (hl : l.indent ≠ 0) : StandsIn l above.reverse s' := by
  induction h generalizing above below with
  | nil => simp at hls
  | @function s s' line rest name total entryCount f hindent hline hbody _ hrest ih =>
    cases above with
    | nil =>
      cases hls
      exact absurd hindent hl
    | cons first above =>
      obtain ⟨rfl, hmore⟩ := List.cons.inj hls
      rw [← deeper_append_behind 0 rest] at hmore
      rw [List.reverse_cons]
      rcases append_eq_append_cons hmore with ⟨inner, hinner⟩ | ⟨front, rfl, hfront⟩
      · obtain ⟨hreach, said, path, g, hsaid, hpath, hg, hshows⟩ := hbody.standsBelow hinner
        have hne : deeper 0 rest ≠ [] := by simp [hinner]
        have hlt : line.indent < reach l.indent above.reverse := by
          rw [hindent, hreach]
          exact lt_bodyIndent_deeper hne
        obtain ⟨howners, hzero⟩ := owners_append_of_lt hlt
        have hname : f.name = name := hbody.name_eq
        have hf : s'.get? name = some f := by
          refine hrest.keeps ?_
          rw [Store.get?_insert, if_pos hname.symm]
        exact ⟨hzero.trans hindent, said, name, path, g, hsaid,
          ⟨_, line, total, entryCount, howners, hindent, hline, hpath⟩,
          Option.bind_eq_some_iff.2 ⟨f, hf, hg⟩, hshows⟩
      · obtain ⟨hreach, said, name, path, g, hsaid, hlead, hg, hshows⟩ := ih hfront
        have hfar : ∀ x ∈ (deeper 0 rest).reverse ++ [line],
            reach l.indent front.reverse ≤ x.indent := fun x _ => hreach ▸ Nat.zero_le x.indent
        obtain ⟨howners, hzero⟩ := owners_append_of_le hfar
        rw [List.reverse_append, List.append_assoc]
        exact ⟨hzero.trans hreach, said, name, path, g, hsaid, howners ▸ hlead, hg, hshows⟩

/-- Where a line of samples stands in a text that is read as a profile, the node that the lines
above it lead to has its count at its location. Each name on the line is there with the last count
that the line gives it, and there is one entry for each different name: so there are as many entries
as words exactly if no name comes twice. -/
theorem targets_of_ofText {bytes : List UInt8} {p : Profile} (h : Profile.ofText bytes = .ok p)
    (hls : lines (skipHeader (.ofBytes bytes)) = above ++ l :: below) (hl : l.indent ≠ 0)
    {location : Location} {digits behind : List UInt8} {n : Nat}
    (hline : IsBodyLine l.content.bytes location (digits ++ behind)) (hdigits : IsNumber digits n)
    (hbehind : EndsWord behind) :
    ∃ name path tally targets, LeadTo (owners l.indent above.reverse) name path ∧
      p.store.tallyAt? name path location = some tally ∧ tally.count.toNat = n ∧
      AreTargets behind targets ∧
      (∀ called, tally.targets.get? called = lastUnder? targets called) ∧
      tally.targets.size = (targets.map Prod.fst).dedup.length ∧
      (tally.targets.size = (tokens behind).length ↔ (targets.map Prod.fst).Nodup) := by
  obtain ⟨-, said, name, path, g, hsaid, hlead, hg, hshows⟩ :=
    (buildsStore_of_ofText h).standsIn hls hl
  obtain ⟨next, hread⟩ := readBodyLine_of_isBodyLine hline
  rw [hread, readBehind_of_isNumber hdigits hbehind] at hsaid
  obtain ⟨targets, htargets, rfl⟩ := hsaid
  refine ⟨name, path, _, targets, hlead, Option.bind_eq_some_iff.2 ⟨g, hg, hshows⟩,
    UInt64.toNat_ofNat_of_lt' hdigits.fits, htargets, SortedMap.get?_ofList targets,
    SortedMap.size_ofList targets, ?_⟩
  rw [SortedMap.size_ofList, htargets.length_eq, ← List.dedup_eq_self,
    ← (List.dedup_sublist _).length_eq, List.length_map]

end Place

/-- A line of a callee that calls one function twice. -/
def repeatedText : List UInt8 := encodeText "f:9:1\n 1: g:4\n  2: 03 b:1 a:b:2 b:5\n 4: 1\n"

/-- The line that calls one function twice has three words and two entries. -/
theorem targets_of_repeatedText :
    ∃ p above l below, Profile.ofText repeatedText = .ok p ∧
      lines (skipHeader (.ofBytes repeatedText)) = above ++ l :: below ∧ l.indent ≠ 0 ∧
      IsBodyLine l.content.bytes (.ofLine 2 0) (encodeText "03" ++ encodeText " b:1 a:b:2 b:5") ∧
      ∃ name path tally targets, LeadTo (owners l.indent above.reverse) name path ∧
        p.store.tallyAt? name path (.ofLine 2 0) = some tally ∧ tally.count.toNat = 3 ∧
        AreTargets (encodeText " b:1 a:b:2 b:5") targets ∧
        (tally.targets.size = 3 ↔ (targets.map Prod.fst).Nodup) := by
  obtain ⟨p, hp⟩ := exists_of_isOk (x := Profile.ofText repeatedText) (by decide +kernel)
  have hls : lines (skipHeader (.ofBytes repeatedText))
      = [⟨0, ⟨0, encodeText "f:9:1"⟩⟩, ⟨1, ⟨7, encodeText "1: g:4"⟩⟩]
        ++ ⟨2, ⟨16, encodeText "2: 03 b:1 a:b:2 b:5"⟩⟩ :: [⟨1, ⟨37, encodeText "4: 1"⟩⟩] := by
    decide +kernel
  have hline : IsBodyLine (encodeText "2: 03 b:1 a:b:2 b:5") (.ofLine 2 0)
      (encodeText "03" ++ encodeText " b:1 a:b:2 b:5") :=
    have htwo : IsNumber [0x32] 2 := by decide
    ⟨⟨[0x32], [0x20], .line htwo (by decide), by decide, by decide +kernel⟩, by decide +kernel⟩
  have hdigits : IsNumber (encodeText "03") 3 := by decide +kernel
  obtain ⟨name, path, tally, targets, hlead, htally, hcount, htargets, -, -, hsize⟩ :=
    targets_of_ofText hp hls (by decide) hline hdigits (by decide +kernel)
  have hwords : (tokens (encodeText " b:1 a:b:2 b:5")).length = 3 := by decide +kernel
  rw [hwords] at hsize
  exact ⟨p, _, _, _, hp, hls, by decide, hline, name, path, tally, targets, hlead, htally, hcount,
    htargets, hsize⟩

/-- A function that is called twice on one line is not refused. The first of its counts is lost. -/
theorem repeated_target_is_lost :
    (Profile.ofText repeatedText).toOption.bind (fun p =>
        (p.store.tallyAt? "f" [⟨.ofLine 1 0, "g"⟩] (.ofLine 2 0)).map fun t => t.targets.entries)
      = some [("a:b", 2), ("b", 5)] := by decide +kernel

end Text

end SamplingProfile
