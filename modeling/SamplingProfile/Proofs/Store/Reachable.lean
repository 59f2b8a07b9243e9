-- The stores that a program can come to, by any sequence of reports, merges, insertions and
-- readings. Each operation keeps a store legal, so each of these stores is, and no writer finds
-- a chain of callees in it that is too long.
import SamplingProfile.Proofs.Binary.WriteErrors
import SamplingProfile.Proofs.Reading.LegalProfiles
import SamplingProfile.Text.Write

namespace SamplingProfile

namespace Store

/-- The stores that come of the empty one by sequences of operations. -/
inductive Reachable : Store → Prop
  | empty : Reachable ∅
  /-- A report of a profiler, taken or refused. -/
  | record {s : Store} (e : Event) : Reachable s → Reachable (s.record e)
  | merge {s other : Store} (mode : Mode) :
      Reachable s → Reachable other → Reachable (s.merge mode other)
  | mergeWeighted {s other : Store} (mode : Mode) (weight : Count) :
      Reachable s → Reachable other → Reachable (s.mergeWeighted mode weight other)
  /-- A function that was put together elsewhere, with callees under their own names on chains
  that are not too long. -/
  | insert {s : Store} {f : FunctionProfile} : Reachable s → f.callees.forest.Named →
      f.inlineDepth ≤ maxInlineDepth → Reachable (s.insert f)
  /-- The store of a profile, in the place of the one before. -/
  | replace {bytes : List UInt8} {p : Profile} :
      Profile.ofBytes bytes = .ok p → Reachable p.store
  /-- The functions of any bytes, taken into the store. -/
  | take {i : Intake} (bytes : List UInt8) :
      Reachable i.store → Reachable (i.take bytes).1.store

theorem Reachable.recordAll {s : Store} (h : s.Reachable) (events : List Event) :
    (s.recordAll events).Reachable := by
  induction events generalizing s with
  | nil => exact h
  | cons e events ih => exact ih (h.record e)

/-- Every operation keeps a store legal. -/
theorem Reachable.legal {s : Store} (h : s.Reachable) : s.Legal := by
  induction h with
  | empty => exact legal_empty
  | record e _ ih => exact ih.record e
  | merge mode _ _ ih ih' => exact ih.mergeWeighted mode 1 ih'
  | mergeWeighted mode weight _ _ ih ih' => exact ih.mergeWeighted mode weight ih'
  | insert _ hnamed hdepth ih =>
    rw [FunctionProfile.inlineDepth_eq_height] at hdepth
    exact ih.insert ⟨hnamed, hdepth⟩
  | replace h => exact Profile.legal_of_ofBytes h
  | take bytes _ ih => exact Intake.legal_take ih bytes

/-- In every store that can be reached a function is under its own name, each callee below it is
under the name that it has itself, and no chain of callees is longer than the limit. So no writer
refuses the store for its depth. -/
theorem reachable_store_is_sound {s : Store} (h : s.Reachable) :
    (∀ name f, s.get? name = some f →
      f.name = name ∧ f.callees.forest.Named ∧ f.inlineDepth ≤ maxInlineDepth) ∧
    (Text.write s).error? = none ∧
    ∀ (w : Binary.Writer) deflate name depth,
      (w.write s deflate).error? ≠ some (.tooDeep name depth) := by
  have hdeep := h.legal.tooDeep?_eq_none
  refine ⟨fun name f hf => ?_, ?_, fun w deflate name depth he => ?_⟩
  · obtain ⟨hnamed, hheight⟩ := h.legal name f hf
    rw [FunctionProfile.inlineDepth_eq_height]
    exact ⟨name_of_get? hf, hnamed, hheight⟩
  · rw [Text.write, hdeep]
  · have := Binary.Writer.tooDeep?_of_write he
    rw [hdeep] at this
    cases this

/-- A sample of an inlined function, and a call of a function that is not known. -/
def someReports : List Event := [
  .register "main",
  .sample "main" [{ function := "g", line := 7 }, { function := "main", line := 2 }] 5 .sum,
  .target "unknown" [{ function := "unknown" }] "main" 1]

/-- The text of a function with two levels of callees. -/
def nestedText : List UInt8 := encodeText "g:3:1\n 1: h:3\n  2.1: k:3\n   4: 3 t:2\n"

/-- Reports, a text that is taken in, a merge with what it gave, and a function put in. -/
def assembled : Store :=
  let taken := ((Intake.ofStore (recordAll ∅ someReports) true).take nestedText).1.store
  (taken.mergeWeighted .max 3 taken).insert
    { name := "put", callees := .ofList [(⟨⟨5⟩, "c"⟩, { name := "c" })] }

/-- `assembled` is reached, it has a function with two levels of callees, and no writer finds it
too deep. -/
theorem assembled_is_sound : assembled.Reachable ∧
    (assembled.get? "g").map FunctionProfile.inlineDepth = some 2 ∧ assembled.CalleesNamed ∧
    (Text.write assembled).error? = none ∧
    ∀ name depth, (({} : Binary.Writer).write assembled).error? ≠ some (.tooDeep name depth) := by
  have hreports : (recordAll ∅ someReports).Reachable := Reachable.empty.recordAll someReports
  have htaken := Reachable.take (i := .ofStore (recordAll ∅ someReports) true) nestedText hreports
  have h : assembled.Reachable :=
    (htaken.mergeWeighted .max 3 htaken).insert (by decide +kernel) (by decide +kernel)
  obtain ⟨hsound, htext, hbinary⟩ := reachable_store_is_sound h
  refine ⟨h, by decide +kernel, fun f hf => ?_, htext, hbinary {} Zlib.deflate⟩
  exact (hsound f.name f (mem_toList_iff.1 hf)).2.1

end Store

end SamplingProfile
