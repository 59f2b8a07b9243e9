-- What a store without places in the source does to those of another one. A node that has a
-- directory or a file keeps its place. One that has only a first line loses it where the other
-- store has the node: the two names tell whether there is a place, and the line goes with them.
import SamplingProfile.Proofs.Store.Bodies
import SamplingProfile.Proofs.Store.RepeatedMerges
import SamplingProfile.Proofs.Text.Reading

namespace SamplingProfile

/-! ## Nodes without a place in the source -/

/-- A node that says nothing of its place in the source. -/
structure Body.Unplaced (b : Body) : Prop where
  directory : b.directory = ""
  file : b.file = ""
  startLine : b.startLine = 0

instance (b : Body) : Decidable b.Unplaced :=
  decidable_of_iff (b.directory = "" ∧ b.file = "" ∧ b.startLine = 0)
    ⟨fun ⟨hdirectory, hfile, hline⟩ => ⟨hdirectory, hfile, hline⟩,
      fun h => ⟨h.directory, h.file, h.startLine⟩⟩

/-- No node of the store says anything of its place in the source. -/
def Store.Unplaced (s : Store) : Prop := ∀ b ∈ s.bodies, b.Unplaced

instance (s : Store) : Decidable s.Unplaced :=
  inferInstanceAs (Decidable (∀ b ∈ s.bodies, b.Unplaced))

namespace Body

variable {other : Body} (mode : Mode) (weight : Count) (own : Body)

theorem directory_merge (h : other.Unplaced) :
    (own.merge mode weight other).directory = own.directory := by
  unfold merge
  split
  · rename_i hown
    rw [h.directory, hown.2]
  · rfl

theorem file_merge (h : other.Unplaced) : (own.merge mode weight other).file = own.file := by
  unfold merge
  split
  · rename_i hown
    rw [h.file, hown.1]
  · rfl

theorem startLine_merge (h : other.Unplaced) :
    (own.merge mode weight other).startLine
      = if own.file = "" ∧ own.directory = "" then 0 else own.startLine := by
  unfold merge
  split
  · exact h.startLine
  · rfl

theorem startLine_merge_eq_iff (h : other.Unplaced) :
    (own.merge mode weight other).startLine = own.startLine
      ↔ own.startLine = 0 ∨ own.file ≠ "" ∨ own.directory ≠ "" := by
  rw [startLine_merge mode weight own h]
  by_cases hfile : own.file = "" <;> by_cases hdirectory : own.directory = "" <;>
    simp [hfile, hdirectory, eq_comm]

theorem startLine_merge_or (h : other.Unplaced) :
    (own.merge mode weight other).startLine = own.startLine
      ∨ (own.merge mode weight other).startLine = 0 := by
  rw [startLine_merge mode weight own h]
  split
  · exact .inr rfl
  · exact .inl rfl

/-- A node that says nothing of its place takes on all that the other one says. -/
theorem merge_of_unplaced {own : Body} (h : own.Unplaced) :
    (own.merge mode weight other).directory = other.directory ∧
      (own.merge mode weight other).file = other.file ∧
      (own.merge mode weight other).startLine = other.startLine := by
  unfold merge
  rw [if_pos ⟨h.file, h.directory⟩]
  exact ⟨rfl, rfl, rfl⟩

end Body

/-! ## Texts -/

namespace Text

theorem unplaced_ofName (name : String) (entryCount : Count) :
    ∀ b ∈ ({ FunctionProfile.ofName name with entryCount } : FunctionProfile).bodies,
      b.Unplaced := by
  intro b hb
  cases List.mem_singleton.1 hb
  exact ⟨rfl, rfl, rfl⟩

/-- The lines of a body say nothing of places in the source. -/
theorem Builds.unplaced {indent levels : Nat} {node f : FunctionProfile} {ls : List Line}
    (h : Builds indent levels node ls f) (hnode : ∀ b ∈ node.bodies, b.Unplaced) :
    ∀ b ∈ f.bodies, b.Unplaced := by
  induction h with
  | nil => exact hnode
  | sample _ _ _ _ ih =>
    obtain ⟨hown, hbelow⟩ := List.forall_mem_cons.1 hnode
    exact ih (List.forall_mem_cons.2 ⟨⟨hown.directory, hown.file, hown.startLine⟩, hbelow⟩)
  | callee _ _ _ hnew _ ihCallee ih =>
    refine ih fun b hb => ?_
    rcases List.mem_append.1 ((FunctionProfile.perm_bodies_addCallee hnew _).mem_iff.1 hb)
      with hb | hb
    · exact ihCallee (unplaced_ofName _ 0) b hb
    · exact hnode b hb

theorem BuildsStore.unplaced {s s' : Store} {ls : List Line} (h : BuildsStore s ls s')
    (hs : s.Unplaced) : s'.Unplaced := by
  induction h with
  | nil => exact hs
  | function _ _ hbody hnew _ ih =>
    refine ih fun b hb => ?_
    rcases List.mem_append.1 ((Store.perm_bodies_insert hnew).mem_iff.1 hb) with hb | hb
    · exact hbody.unplaced (unplaced_ofName _ _) b hb
    · exact hs b hb

end Text

/-! ## Stores -/

namespace Store

theorem unplaced_of_ofText {bytes : List UInt8} {p : Profile} (h : Profile.ofText bytes = .ok p) :
    p.store.Unplaced :=
  (Text.buildsStore_of_ofText h).unplaced fun _ hb => nomatch hb

/-- A store that says nothing of places in the source is merged into another one: every node is
still there with its name, its directory and its file, and with its first line as long as it has a
directory or a file or the store that is merged does not have the node; if not, its first line is 0
afterwards. Merged the other way round, every node keeps all of its place. The stores that are read
from texts are of this kind. -/
theorem first_line_stays_iff (mode : Mode) (weight : Count) (a b : Store) :
    (b.Unplaced → ∀ name path own, a.nodeAt? name path = some own →
      (∃ merged, (a.mergeWeighted mode weight b).nodeAt? name path = some merged ∧
        merged.name = own.name ∧ merged.directory = own.directory ∧ merged.file = own.file ∧
        (merged.startLine = own.startLine ∨ merged.startLine = 0) ∧
        (merged.startLine = own.startLine ↔ own.startLine = 0 ∨ own.file ≠ "" ∨
          own.directory ≠ "" ∨ b.nodeAt? name path = none)) ∧
      ∃ merged, (b.mergeWeighted mode weight a).nodeAt? name path = some merged ∧
        merged.directory = own.directory ∧ merged.file = own.file ∧
        merged.startLine = own.startLine) ∧
    ∀ bytes p, Profile.ofText bytes = .ok p → p.store.Unplaced := by
  refine ⟨fun hb name path own hown => ?_, fun bytes p => unplaced_of_ofText⟩
  rw [nodeAt?_mergeWeighted, nodeAt?_mergeWeighted, hown]
  cases hother : b.nodeAt? name path with
  | none =>
    have hbody := FunctionProfile.toBody_weighted weight own
    refine ⟨⟨own, rfl, rfl, rfl, rfl, .inl rfl, by simp⟩, own.weighted weight, rfl, ?_⟩
    rw [hbody]
    exact ⟨rfl, rfl, rfl⟩
  | some other =>
    have hunplaced := hb other.toBody (toBody_mem_bodies hother)
    have hline := Body.startLine_merge_eq_iff mode weight own.toBody hunplaced
    refine ⟨⟨own.merge mode weight other, rfl, rfl, Body.directory_merge mode weight _ hunplaced,
      Body.file_merge mode weight _ hunplaced, Body.startLine_merge_or mode weight _ hunplaced, ?_⟩,
      other.merge mode weight own, rfl, Body.merge_of_unplaced mode weight hunplaced⟩
    rw [eq_false (Option.some_ne_none other), or_false]
    exact hline

/-- A text with a function that calls another one in line. -/
def callerText : List UInt8 := encodeText "main:3:0\n 1: g:3\n  2: 3\n"

/-- The function has a file and keeps its first line, whichever store is merged into the other. -/
theorem first_line_of_placed_caller :
    ∃ p main merged merged', Profile.ofText callerText = .ok p ∧ p.store.Unplaced ∧
      hotCallee.nodeAt? "main" [] = some main ∧
      (hotCallee.mergeWeighted .sum 2 p.store).nodeAt? "main" [] = some merged ∧
      merged.file = "main.c" ∧ merged.startLine = 4 ∧
      (p.store.mergeWeighted .sum 2 hotCallee).nodeAt? "main" [] = some merged' ∧
      merged'.file = "main.c" ∧ merged'.startLine = 4 := by
  obtain ⟨p, hp⟩ := Text.exists_of_isOk (x := Profile.ofText callerText) (by decide +kernel)
  obtain ⟨hstays, htext⟩ := first_line_stays_iff .sum 2 hotCallee p.store
  have hunplaced := htext callerText p hp
  obtain ⟨main, hmain, hfile, hline⟩ : ∃ main, hotCallee.nodeAt? "main" [] = some main ∧
      main.file = "main.c" ∧ main.startLine = 4 := ⟨_, rfl, rfl, rfl⟩
  obtain ⟨⟨merged, hmerged, -, -, hsame, -, hiff⟩, merged', hmerged', -, hsame', hline'⟩ :=
    hstays hunplaced "main" [] main hmain
  refine ⟨p, main, merged, merged', hp, hunplaced, hmain, hmerged, hsame.trans hfile, ?_, hmerged',
    hsame'.trans hfile, hline'.trans hline⟩
  rw [hiff.2 (.inr (.inl (by rw [hfile]; decide))), hline]

/-- A function that has only a first line loses it to one that has not even that. -/
theorem first_line_can_be_lost :
    ¬ ∀ (mode : Mode) (weight : Count) (a b : Store), b.Unplaced →
      ∀ name path own, a.nodeAt? name path = some own →
        ∃ merged, (a.mergeWeighted mode weight b).nodeAt? name path = some merged ∧
          merged.name = own.name ∧ merged.directory = own.directory ∧ merged.file = own.file ∧
          merged.startLine = own.startLine := by
  intro h
  have hunplaced : (ofList [.ofName "main"]).Unplaced := by decide +kernel
  obtain ⟨merged, hmerged, -, -, -, hline⟩ :=
    h .sum 1 coldCaller (ofList [.ofName "main"]) hunplaced "main" [] _ rfl
  cases hmerged
  revert hline
  decide +kernel

end Store

end SamplingProfile
