-- No line of a text is lost and no two become one. Each line adds one thing to the store, a
-- function, a callee or a location with its count, and what was there before it stays.
import SamplingProfile.Proofs.Store.Bodies
import SamplingProfile.Proofs.Text.BodyLines
import SamplingProfile.Proofs.Text.Reading

open scoped List

namespace SamplingProfile

/-! ## What lines add -/

/-- What one line adds to a store. -/
inductive Item
  | node
  | location (count : Nat) (instructions : Count)
deriving DecidableEq

/-- The count of a location. -/
def Item.count? : Item → Option Nat
  | node => none
  | location count _ => some count

/-- A node, and the locations of which it holds something. -/
def Body.items (b : Body) : List Item :=
  .node :: b.samples.values.map fun tally => .location tally.count.toNat tally.instructions

/-- The nodes of a function and the locations in them. -/
def FunctionProfile.items (f : FunctionProfile) : List Item := f.bodies.flatMap Body.items

/-- The nodes of a store and the locations in them. -/
def Store.items (s : Store) : List Item := s.bodies.flatMap Body.items

namespace Store

theorem length_items (s : Store) :
    s.items.length = (s.toList.map FunctionProfile.nodeCount).sum
      + (s.bodies.map fun b => b.samples.size).sum := by
  rw [← length_bodies, items]
  induction s.bodies with
  | nil => rfl
  | cons b bodies ih =>
    have hsize : b.samples.values.length = b.samples.size := List.length_map ..
    rw [List.flatMap_cons, List.length_append, ih, Body.items, List.length_cons, List.length_map,
      hsize, List.length_cons, List.map_cons, List.sum_cons]
    omega

theorem filterMap_count?_items (s : Store) :
    s.items.filterMap Item.count? = s.sampleCounts.map UInt64.toNat := by
  have hbody : ∀ b : Body, b.items.filterMap Item.count? = b.counts.map UInt64.toNat := by
    intro b
    rw [Body.items, List.filterMap_cons_none rfl, List.filterMap_map, Body.counts, List.map_map,
      ← List.filterMap_eq_map]
    rfl
  rw [items, List.filterMap_flatMap, sampleCounts_eq_flatMap, List.map_flatMap]
  simp only [hbody]

theorem location_mem_items {s : Store} {name : String} {path : List Callsite} {location : Location}
    {tally : Tally} (h : s.tallyAt? name path location = some tally) :
    Item.location tally.count.toNat tally.instructions ∈ s.items := by
  obtain ⟨b, hb, htally⟩ := tally_mem_bodies h
  exact List.mem_flatMap.2 ⟨b, hb, List.mem_cons_of_mem _ (List.mem_map_of_mem htally)⟩

end Store

namespace Text

/-- What stands behind the first colon and blanks. -/
def behindColon (bytes : List UInt8) : List UInt8 :=
  ((bytes.dropWhile (· ≠ 0x3a)).drop 1).dropWhile isBlank

/-- The count that a line gives a location. A line that is not indented gives none, nor does one
with no count behind the first colon. -/
def Line.count? (l : Line) : Option Nat :=
  if l.indent = 0 then none else leadingCount? (behindColon l.content.bytes)

/-- What a line adds: a location if it gives a count, and else a node. -/
def Line.item (l : Line) : Item :=
  match l.count? with
  | none => .node
  | some n => .location n 1

theorem IsBodyLine.behindColon_eq {bytes behind : List UInt8} {location : Location}
    (h : IsBodyLine bytes location behind) : behindColon bytes = behind := by
  obtain ⟨text, blanks, hlocation, hblanks, rfl⟩ := h.front
  have hcolon : ∀ b ∈ text, decide (b ≠ 0x3a) = true := by
    intro b hb
    rw [decide_eq_true_iff]
    rintro rfl
    exact hlocation.colon_notMem hb
  have hbehind := dropWhile_append_eq_right hblanks.2 h.unblank
  unfold behindColon
  rw [List.dropWhile_append_of_pos hcolon]
  exact hbehind

section Line

variable {l : Line} (hindent : l.indent ≠ 0)
include hindent

theorem item_of_sample {location : Location} {count : Count} {targets : List (String × Count)}
    (h : readBodyLine l.content = .ok (.sample location count targets)) :
    l.item = .location count.toNat 1 := by
  obtain ⟨digits, behind, hline, hdigits, hends, -⟩ := readBodyLine_eq_sample_iff.1 h
  rw [Line.item, Line.count?, if_neg hindent, hline.behindColon_eq,
    leadingCount?_of_isNumber hdigits hends]

theorem item_of_callee {site : Callsite} (h : readBodyLine l.content = .ok (.callee site)) :
    l.item = .node := by
  obtain ⟨behind, total, hline, hcount, -⟩ := readBodyLine_eq_callee_iff.1 h
  rw [Line.item, Line.count?, if_neg hindent, hline.behindColon_eq, hcount]

end Line

/-! ## What lines do to trees -/

section Trees

variable {node f : FunctionProfile}

theorem perm_items_addSamples {location : Location}
    (hnew : node.samples.get? location = none) (count : Count) (targets : List (String × Count)) :
    (addSamples node location count targets).items ~ .location count.toNat 1 :: node.items := by
  let tally : Tally := { count, instructions := 1, targets := .ofList targets }
  have hlocations : ((node.samples.insert location tally).values.map
      fun t => Item.location t.count.toNat t.instructions).Perm
        (.location count.toNat 1
          :: node.samples.values.map fun t => Item.location t.count.toNat t.instructions) :=
    ((SortedMap.perm_insert hnew tally).map Prod.snd).map _
  exact ((hlocations.cons Item.node).trans (.swap _ _ _)).append_right _

theorem perm_items_addCallee {site : Callsite} (hnew : node.callee? site = none)
    (callee : FunctionProfile) :
    (addCallee node site callee).items ~ callee.items ++ node.items := by
  have h := (FunctionProfile.perm_bodies_addCallee hnew callee).flatMap_right Body.items
  rwa [List.flatMap_append] at h

/-- Lines add to a node what each of them adds. -/
theorem Builds.perm_items {indent levels : Nat} {ls : List Line}
    (h : Builds indent levels node ls f) (hls : ∀ l ∈ ls, l.indent ≠ 0) :
    f.items ~ node.items ++ ls.map Line.item := by
  induction h with
  | nil => rw [List.map_nil, List.append_nil]
  | @sample _ _ node f line rest _ count targets _ hsaid hnew _ ih =>
    obtain ⟨hline, hrest⟩ := List.forall_mem_cons.1 hls
    have hfirst := perm_items_addSamples hnew count targets
    rw [List.map_cons, item_of_sample hline hsaid]
    exact (ih hrest).trans ((hfirst.append_right _).trans List.perm_middle.symm)
  | @callee indent _ node callee f line rest _ _ hsaid _ hnew _ ihCallee ih =>
    obtain ⟨hline, hrest⟩ := List.forall_mem_cons.1 hls
    have hinner := ihCallee fun l hl => hrest l (deeper_subset indent rest hl)
    have hmore := ih fun l hl => hrest l (behind_subset indent rest hl)
    have hadded := (perm_items_addCallee hnew callee).trans (hinner.append_right node.items)
    calc f.items
      _ ~ .node :: (deeper indent rest).map Line.item ++ node.items
            ++ (behind indent rest).map Line.item := hmore.trans (hadded.append_right _)
      _ ~ node.items ++ .node :: (deeper indent rest).map Line.item
            ++ (behind indent rest).map Line.item := List.perm_append_comm.append_right _
      _ = node.items ++ (line :: rest).map Line.item := by
        rw [List.map_cons, item_of_callee hline hsaid, List.append_assoc, List.cons_append,
          ← List.map_append, deeper_append_behind]

end Trees

/-! ## What lines do to a store -/

theorem perm_items_insert {s : Store} {f : FunctionProfile} (hnew : s.get? f.name = none) :
    (s.insert f).items ~ f.items ++ s.items := by
  have h := (Store.perm_bodies_insert hnew).flatMap_right Body.items
  rwa [List.flatMap_append] at h

theorem BuildsStore.perm_items {s s' : Store} {ls : List Line} (h : BuildsStore s ls s') :
    s'.items ~ s.items ++ ls.map Line.item := by
  induction h with
  | nil => rw [List.map_nil, List.append_nil]
  | @function s s' line rest _ _ _ f hindent _ hbody hnew _ ih =>
    have hinner := hbody.perm_items fun l hl => Nat.ne_of_gt (lt_indent_of_mem_deeper hl)
    have hitem : line.item = .node := by rw [Line.item, Line.count?, if_pos hindent]
    have hadded := (perm_items_insert hnew).trans (hinner.append_right s.items)
    calc s'.items
      _ ~ .node :: (deeper 0 rest).map Line.item ++ s.items
            ++ (behind 0 rest).map Line.item := ih.trans (hadded.append_right _)
      _ ~ s.items ++ .node :: (deeper 0 rest).map Line.item
            ++ (behind 0 rest).map Line.item := List.perm_append_comm.append_right _
      _ = s.items ++ (line :: rest).map Line.item := by
        rw [List.map_cons, hitem, List.append_assoc, List.cons_append, ← List.map_append,
          deeper_append_behind]

/-- When a text is read as a profile there are as many nodes and locations in the store as there are
lines in the text; the counts of the store are those of the lines; and every location has one
instruction. -/
theorem items_of_ofText {bytes : List UInt8} {p : Profile} (h : Profile.ofText bytes = .ok p) :
    (lines (skipHeader (.ofBytes bytes))).length
      = (p.store.toList.map FunctionProfile.nodeCount).sum
        + (p.store.bodies.map fun b => b.samples.size).sum ∧
    (p.store.sampleCounts.map UInt64.toNat).Perm
      ((lines (skipHeader (.ofBytes bytes))).filterMap Line.count?) ∧
    ∀ name path location tally, p.store.tallyAt? name path location = some tally →
      tally.instructions = 1 := by
  have hitems : p.store.items ~ (lines (skipHeader (.ofBytes bytes))).map Line.item :=
    (buildsStore_of_ofText h).perm_items
  have hcount : ∀ l : Line, l.item.count? = l.count? := by
    intro l
    unfold Line.item
    cases l.count? <;> rfl
  refine ⟨?_, ?_, fun name path location tally htally => ?_⟩
  · rw [← Store.length_items, hitems.length_eq]
    exact (List.length_map ..).symm
  · have hcounts := hitems.filterMap Item.count?
    rw [Store.filterMap_count?_items, List.filterMap_map] at hcounts
    rwa [← funext hcount]
  · obtain ⟨l, -, hl⟩ := List.mem_map.1 (hitems.mem_iff.1 (Store.location_mem_items htally))
    unfold Line.item at hl
    split at hl
    · cases hl
    · exact (Item.location.inj hl).2.symm

/-- Comments, an empty line, a return in front of a newline, a zero in front of a count, and one
count at three locations. -/
def commentedText : List UInt8 :=
  encodeText "# x\nf:9:1\n 1: 05 t:2\n\n 2: g:4\n\t\t3: 5\n\t\t#\n\t\t3.1: 5\r\ng:0:0\n"

/-- Six lines say three nodes and three locations. -/
theorem items_of_commentedText :
    ∃ p, Profile.ofText commentedText = .ok p ∧
      (p.store.toList.map FunctionProfile.nodeCount).sum
        + (p.store.bodies.map fun b => b.samples.size).sum = 6 ∧
      p.store.sampleCounts.map UInt64.toNat ~ [5, 5, 5] ∧
      ∀ name path location tally, p.store.tallyAt? name path location = some tally →
        tally.instructions = 1 := by
  obtain ⟨p, hp⟩ := exists_of_isOk (x := Profile.ofText commentedText) (by decide +kernel)
  obtain ⟨hlength, hcounts, hones⟩ := items_of_ofText hp
  have hsix : (lines (skipHeader (.ofBytes commentedText))).length = 6 := by decide +kernel
  have hfives :
      (lines (skipHeader (.ofBytes commentedText))).filterMap Line.count? = [5, 5, 5] := by
    decide +kernel
  rw [hfives] at hcounts
  exact ⟨p, hp, hlength ▸ hsix, hcounts, hones⟩

end Text

end SamplingProfile
