-- What becomes of a summary that is kept with a profile. It comes back with every number that it
-- had, be they those of any functions or not; the narrow form alone may have no room for it. And
-- since the functions are read from what stands behind it, no summary makes them others.
import SamplingProfile.Proofs.Binary.Anywhere
import SamplingProfile.Proofs.Binary.Parts
import SamplingProfile.Proofs.Binary.Room

namespace SamplingProfile

open Reader

namespace Binary

/-! ## The section -/

namespace Layout

variable (l : Layout) {summary? : Option Summary}

theorem restores_readSummary (hwords : ∀ x, summary? = some x → x.Below UInt64.size) :
    l.readSummary.Restores (l.writeSummary summary?) summary? := by
  cases summary? with
  | none => exact l.restores_readSummary_none
  | some x =>
    have hx := hwords x rfl
    exact l.restores_readSummary_some hx.numCounts hx.numFunctions hx.length hx.coverage

theorem fits_writeSummary? (summary? : Option Summary) :
    (l.writeSummary summary?).Fits l.version.number
      (l.integers = .narrow → ∀ x, summary? = some x → x.Below UInt32.size) := by
  cases summary? with
  | none => exact (Output.fits_ofBytes [0]).congr (iff_of_true trivial fun _ _ h => nomatch h)
  | some x =>
    refine (l.fits_writeSummary x).congr ⟨fun h hl => ?_, fun h hl => h hl x rfl⟩
    rintro y hy
    cases hy
    exact h hl

end Layout

/-! ## What stands behind it -/

/-- The store that is read behind a summary, if there are sections behind it and nothing else. -/
def storeBehind? (v : Version) (tail : List UInt8) : Option Store :=
  (v.layout.readStore.outcome (.ofBytes tail)).bind fun r => if r.2 = [] then some r.1 else none

end Binary

namespace Profile

open Binary

theorem toOption_ofBytes (tail : List UInt8) :
    (Profile.ofBytes (magic ++ tail)).toOption =
      (readVersioned.outcome ⟨8, tail⟩).bind fun r => if r.2 = [] then some r.1 else none := by
  cases hr : readVersioned ⟨8, tail⟩ with
  | error e =>
    obtain ⟨refusal, he, -⟩ := ofBytes_of_versioned_error hr
    rw [he, outcome_of_error hr]
    rfl
  | ok r =>
    rw [ofBytes_of_versioned hr, outcome_of_ok hr, Option.bind_some]
    split <;> rfl

theorem outcome_readVersioned {v : Version} {summary? : Option Summary} {bytes : List UInt8}
    (hread : v.layout.readSummary.Restores ⟨bytes, none⟩ summary?) (start : Nat)
    (tail : List UInt8) :
    readVersioned.outcome ⟨start, LittleEndian.encode 8 v.number ++ (bytes ++ tail)⟩ =
      (v.layout.readStore.outcome (.ofBytes tail)).map fun r =>
        (⟨.binary v, r.1, summary?⟩, r.2) := by
  have hnumber : v.number < LittleEndian.values 8 := by cases v <;> decide
  have hversion := restores_littleEndian hnumber _ rfl start (bytes ++ tail)
  have hsummary := (hread.within .summary) _ rfl
    (start + (LittleEndian.encode 8 v.number).length) tail
  unfold readVersioned
  rw [outcome_bind_of_ok hversion, Version.ofNumber?_eq_some_iff.2 rfl]
  dsimp only
  rw [Layout.readSections_eq, bind_assoc, outcome_bind_of_ok hsummary, bind_assoc]
  simp only [pure_bind]
  rw [outcome_bind_pure]
  -- the functions are read from the same bytes, wherever the summary ends
  exact congrArg _ (v.layout.agrees_readStore _ _ rfl)

/-- What stands in front of the functions is no part of the question whether there are any. -/
theorem toOption_ofBytes_of_summary {v : Version} {summary? : Option Summary} {bytes : List UInt8}
    (hread : v.layout.readSummary.Restores ⟨bytes, none⟩ summary?) (tail : List UInt8) :
    (Profile.ofBytes (magic ++ (LittleEndian.encode 8 v.number ++ (bytes ++ tail)))).toOption =
      (storeBehind? v tail).map fun s => ⟨.binary v, s, summary?⟩ := by
  rw [toOption_ofBytes, outcome_readVersioned hread, storeBehind?]
  cases v.layout.readStore.outcome (.ofBytes tail) with
  | none => rfl
  | some r =>
    simp only [Option.map_some, Option.bind_some]
    split <;> rfl

/-- A summary whose numbers have 64 bits, whatever they say, is read as it was written, and only
the narrow form may have no room for it: one of its numbers, or the number of its cutoffs, then
takes more than 32 bits. In a profile it stands beside the functions as it is, and the functions are
those that are read behind any other summary. -/
theorem summary_is_kept {summary? : Option Summary}
    (hwords : ∀ x, summary? = some x → x.Below UInt64.size) :
    (∀ (l : Layout) (bytes : List UInt8), (l.writeSummary summary?).toExcept = .ok bytes →
      ∀ start tail, l.readSummary ⟨start, bytes ++ tail⟩
        = .ok (summary?, ⟨start + bytes.length, tail⟩)) ∧
    (∀ l : Layout, (l.writeSummary summary?).Fits l.version.number
      (l.integers = .narrow → ∀ x, summary? = some x → x.Below UInt32.size)) ∧
    (∀ v : Version, v.layout.integers = .narrow ↔ v = .fixed) ∧
    ∀ (v : Version) (bytes : List UInt8),
      (v.layout.writeSummary summary?).toExcept = .ok bytes → ∀ tail,
        let read := Profile.ofBytes (magic ++ (LittleEndian.encode 8 v.number ++ (bytes ++ tail)))
        read.toOption = (storeBehind? v tail).map (fun s => ⟨.binary v, s, summary?⟩) ∧
          ∀ p x, read = .ok p → summary? = some x → p.summary = .ok x := by
  refine ⟨?_, fun l => l.fits_writeSummary? summary?, fun v => Layout.integers_layout_iff, ?_⟩
  · intro l bytes hbytes start tail
    exact l.restores_readSummary hwords bytes (Output.toExcept_eq_ok hbytes) start tail
  · intro v bytes hbytes tail
    have hread := v.layout.restores_readSummary hwords
    rw [Output.toExcept_eq_ok hbytes] at hread
    have hprofile := toOption_ofBytes_of_summary hread tail
    refine ⟨hprofile, fun p x hp hx => ?_⟩
    rw [hp] at hprofile
    obtain ⟨s, -, rfl⟩ := Option.map_eq_some_iff.1 hprofile.symm
    rw [Profile.summary, hx]

/-- A summary that is that of no functions: it says that there are more of them than counts, and its
cutoffs are in no order and pass the whole. -/
def strangeSummary : Summary where
  totalCount := 0
  maxCount := 0xffffffffffffffff
  maxEntryCount := 7
  numCounts := 1
  numFunctions := 0x100000000
  coverage := [⟨2000000, 5, 0⟩, ⟨0, 0, 0xffffffffffffffff⟩, ⟨2000000, 5, 0⟩]

/-- The narrow form has no room for it; the compact form keeps it, with no functions behind it. -/
theorem strangeSummary_is_kept :
    (∃ field, (Version.fixed.layout.writeSummary (some strangeSummary)).error?
      = some (.tooLarge 1 field)) ∧
    Profile.ofBytes (magic ++ (LittleEndian.encode 8 3
        ++ ((Version.compact.layout.writeSummary (some strangeSummary)).bytes ++ [0, 0, 0, 0])))
      = .ok ⟨.binary .compact, ∅, some strangeSummary⟩ := by
  have hwords : ∀ x, some strangeSummary = some x → x.Below UInt64.size := by
    rintro x hx
    cases hx
    exact ⟨by decide, by decide, by decide, by decide⟩
  obtain ⟨-, hfits, -, hprofile⟩ := summary_is_kept hwords
  constructor
  · rcases hfits (Version.layout .fixed) with ⟨hfit, -⟩ | ⟨-, hfield⟩
    · exact absurd (hfit rfl _ rfl).numFunctions (by decide)
    · exact hfield
  · have hbytes : (Version.compact.layout.writeSummary (some strangeSummary)).toExcept
        = .ok (Version.compact.layout.writeSummary (some strangeSummary)).bytes := rfl
    have hbehind : storeBehind? .compact [0, 0, 0, 0] = some ∅ := by decide +kernel
    have hread := (hprofile .compact _ hbytes [0, 0, 0, 0]).1
    rw [hbehind, Version.number] at hread
    generalize Profile.ofBytes _ = read at hread ⊢
    cases read with
    | error e => cases hread
    | ok p =>
      cases hread
      rfl

end Profile

end SamplingProfile
