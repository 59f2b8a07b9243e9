-- A limit changes nothing but the length of what may come out: reading a stream with a limit
-- gives its content if that is no longer than the limit, and nothing otherwise.
import SamplingProfile.Zlib.Inflate

namespace SamplingProfile.Zlib

/-- The same stream with a limit of the content. -/
def Inflater.within (s : Inflater) (limit : Nat) : Inflater := { s with limit? := some limit }

namespace Inflate

variable {α β : Type}

/-- A step that never takes content away and that a limit stops exactly when there would be
more content after the step. -/
def Obeys (m : Inflate α) : Prop :=
  ∀ s : Inflater, s.limit? = none →
    (∀ r, m s = some r → r.2.limit? = none ∧ s.content.size ≤ r.2.content.size) ∧
    ∀ limit, s.content.size ≤ limit → m (s.within limit) =
      (m s).bind fun r =>
        if r.2.content.size ≤ limit then some (r.1, r.2.within limit) else none

/-! ## Steps behind each other -/

theorem obeys_pure (x : α) : Obeys (pure x : Inflate α) := by
  intro s hs
  refine ⟨fun r h => ?_, fun limit h => ?_⟩
  · cases h; exact ⟨hs, Nat.le_refl _⟩
  · show some (x, s.within limit) = (some (x, s)).bind _
    simp [h]

theorem obeys_failure : Obeys (failure : Inflate α) := fun _ _ =>
  ⟨fun _ h => (Option.some_ne_none _ h.symm).elim, fun _ _ => rfl⟩

theorem bind_apply (m : Inflate α) (f : α → Inflate β) (s : Inflater) :
    (m >>= f) s = (m s).bind fun r => f r.1 r.2 := rfl

theorem Obeys.bind {m : Inflate α} {f : α → Inflate β} (hm : Obeys m)
    (hf : ∀ x, Obeys (f x)) : Obeys (m >>= f) := by
  intro s hs
  obtain ⟨grows, stops⟩ := hm s hs
  cases hr : m s with
  | none =>
    refine ⟨fun r h => ?_, fun limit h => ?_⟩
    · simp [bind_apply, hr] at h
    · simp [bind_apply, hr, stops limit h]
  | some r =>
    obtain ⟨ht, hle⟩ := grows r hr
    obtain ⟨grows', stops'⟩ := hf r.1 r.2 ht
    refine ⟨fun q h => ?_, fun limit h => ?_⟩
    · simp only [bind_apply, hr, Option.bind_some] at h
      exact ⟨(grows' q h).1, Nat.le_trans hle (grows' q h).2⟩
    · simp only [bind_apply, hr, stops limit h, Option.bind_some]
      by_cases hfit : r.2.content.size ≤ limit
      · simp only [hfit, ↓reduceIte, Option.bind_some]
        exact stops' limit hfit
      · simp only [hfit, ↓reduceIte, Option.bind_none]
        cases hq : f r.1 r.2 with
        | none => rfl
        | some q =>
          have := (grows' q hq).2
          simp only [Option.bind_some]
          rw [if_neg (by omega)]

theorem Obeys.map {m : Inflate α} (f : α → β) (hm : Obeys m) : Obeys (f <$> m) :=
  (bind_pure_comp f m) ▸ hm.bind fun _ => obeys_pure _

/-! ## Bits and bytes -/

theorem obeys_take (next? : Bits → Option (α × Bits)) : Obeys (take next?) := by
  intro s hs
  refine ⟨fun r hr => ?_, fun limit hfit => ?_⟩
  · obtain ⟨q, _, rfl⟩ := Option.map_eq_some_iff.1 hr
    exact ⟨hs, Nat.le_refl _⟩
  · show (next? s.bits).map _ = ((next? s.bits).map _).bind _
    cases next? s.bits with
    | none => rfl
    | some q => simp [Inflater.within, hfit]

theorem obeys_look (f : Array UInt8 → α) : Obeys (look f) := by
  intro s hs
  refine ⟨fun r hr => ?_, fun limit hfit => ?_⟩
  · cases hr
    exact ⟨hs, Nat.le_refl _⟩
  · show some _ = (some _).bind _
    simp [Inflater.within, hfit]

theorem obeys_push (b : UInt8) : Obeys (push b) := by
  intro s hs
  have hfree : s.isFull = false := by simp [Inflater.isFull, hs]
  refine ⟨fun r hr => ?_, fun limit hfit => ?_⟩
  · simp only [push, hfree, Bool.false_eq_true, ↓reduceIte, Option.some.injEq] at hr
    subst hr
    exact ⟨hs, by simp⟩
  · simp only [push, hfree, Bool.false_eq_true, ↓reduceIte, Option.bind_some, Array.size_push]
    by_cases hfull : limit ≤ s.content.size
    · have : ¬ s.content.size + 1 ≤ limit := by omega
      simp [Inflater.isFull, Inflater.within, hfull, this]
    · have : s.content.size + 1 ≤ limit := by omega
      simp [Inflater.isFull, Inflater.within, hfull, this]

theorem obeys_bit : Obeys bit := (obeys_take _).map _

theorem obeys_number (width : Nat) : Obeys (number width) := by
  induction width with
  | zero => exact obeys_pure 0
  | succ width ih => exact obeys_bit.bind fun _ => ih.bind fun _ => obeys_pure _

theorem obeys_numbers (width count : Nat) : Obeys (numbers width count) := by
  induction count with
  | zero => exact obeys_pure []
  | succ count ih => exact (obeys_number width).bind fun _ => ih.bind fun _ => obeys_pure _

/-! ## Blocks -/

theorem obeys_symbolIn (levels : List (List Nat)) (offset : Nat) :
    Obeys (symbolIn levels offset) := by
  induction levels generalizing offset with
  | nil => exact obeys_failure
  | cons level deeper ih =>
    refine obeys_bit.bind fun b => ?_
    dsimp only
    split
    · exact obeys_pure _
    · exact ih _

theorem obeys_symbol (code : Code) : Obeys (symbol code) := obeys_symbolIn _ _

theorem obeys_stored (length : Nat) : Obeys (stored length) := by
  induction length with
  | zero => exact obeys_pure ()
  | succ length ih => exact (obeys_take _).bind fun b => (obeys_push b).bind fun _ => ih

theorem obeys_storedBlock : Obeys storedBlock := by
  refine (obeys_take _).bind fun _ => (obeys_number 16).bind fun length =>
    (obeys_number 16).bind fun complement => ?_
  split
  · exact obeys_failure.bind fun _ => obeys_stored length
  · exact (obeys_pure ()).bind fun _ => obeys_stored length

theorem obeys_repeatBack (distance length : Nat) : Obeys (repeatBack distance length) := by
  induction length with
  | zero => exact obeys_pure ()
  | succ length ih =>
    exact (obeys_look _).bind fun b => (obeys_push b).bind fun _ => ih

theorem obeys_extended (table : List (Nat × Nat)) (s : Nat) : Obeys (extended table s) := by
  unfold extended
  split
  · exact obeys_failure
  · exact (obeys_number _).bind fun _ => obeys_pure _

theorem obeys_symbols (literals distances : Code) (room : Nat) :
    Obeys (symbols literals distances room) := by
  induction room with
  | zero => exact obeys_failure
  | succ room ih =>
    refine (obeys_symbol literals).bind fun s => ?_
    split
    · exact (obeys_push _).bind fun _ => ih
    · split
      · exact obeys_pure ()
      · exact (obeys_extended _ _).bind fun length => (obeys_symbol distances).bind fun d =>
          (obeys_extended _ d).bind fun distance =>
            (obeys_repeatBack distance length).bind fun _ => ih

theorem obeys_wordLengths (code : Code) (total room : Nat) (lengths : List Nat) :
    Obeys (wordLengths code total room lengths) := by
  induction room generalizing lengths with
  | zero => exact obeys_pure lengths
  | succ room ih =>
    unfold wordLengths
    split
    · exact obeys_pure lengths
    · refine (obeys_symbol code).bind fun s => ?_
      dsimp only
      split
      · exact ih _
      · split
        · split
          · exact obeys_failure
          · exact (obeys_number 2).bind fun _ => ih _
        · split
          · exact ((obeys_number 3).map _).bind fun _ => ih _
          · exact ((obeys_number 7).map _).bind fun _ => ih _

theorem obeys_codeOf (lengths : List Nat) : Obeys (codeOf lengths) := by
  unfold codeOf
  split
  · exact obeys_pure _
  · exact obeys_failure

/-- A step after a check. -/
theorem Obeys.guarded {m : Inflate α} (p : Prop) [Decidable p] (hm : Obeys m) :
    Obeys (do
      if p then failure
      m) := by
  split
  · exact obeys_failure.bind fun _ => hm
  · exact (obeys_pure PUnit.unit).bind fun _ => hm

theorem obeys_dynamicCodes : Obeys dynamicCodes :=
  (obeys_number 5).bind fun _ => (obeys_number 5).bind fun _ => (obeys_number 4).bind fun _ =>
    .guarded _ <| (obeys_numbers 3 _).bind fun _ => (obeys_codeOf _).bind fun _ =>
      (obeys_wordLengths _ _ _ _).bind fun _ => .guarded _ <|
        (obeys_codeOf _).bind fun _ => (obeys_codeOf _).bind fun _ => obeys_pure _

theorem obeys_block : Obeys block := by
  refine (obeys_number 2).bind fun kind => ?_
  split
  · exact obeys_storedBlock
  · exact (obeys_codeOf _).bind fun _ => (obeys_codeOf _).bind fun _ =>
      (obeys_take _).bind fun _ => obeys_symbols _ _ _
  · exact obeys_dynamicCodes.bind fun _ => (obeys_take _).bind fun _ => obeys_symbols _ _ _
  · exact obeys_failure

theorem obeys_blocks (room : Nat) : Obeys (blocks room) := by
  induction room with
  | zero => exact obeys_failure
  | succ room ih =>
    refine obeys_bit.bind fun last => obeys_block.bind fun _ => ?_
    split
    · exact obeys_pure ()
    · exact ih

/-! ## Streams -/

theorem obeys_header : Obeys header := by
  refine (obeys_number 8).bind fun _ => (obeys_number 8).bind fun _ => ?_
  split
  · exact obeys_failure
  · exact obeys_pure ()

theorem obeys_checksum : Obeys checksum := by
  refine (obeys_take _).bind fun _ => (obeys_number 8).bind fun _ => (obeys_number 8).bind fun _ =>
    (obeys_number 8).bind fun _ => (obeys_number 8).bind fun _ => (obeys_look _).bind fun _ => ?_
  split
  · exact obeys_failure
  · exact obeys_pure ()

theorem obeys_stream : Obeys stream :=
  obeys_header.bind fun _ => (obeys_take _).bind fun _ => (obeys_blocks _).bind fun _ =>
    obeys_checksum

end Inflate

/-- With a limit a stream gives its content if that is no longer. -/
theorem inflateWithin?_eq (limit : Nat) (bytes : List UInt8) :
    inflateWithin? limit bytes = (inflate? bytes).filter (·.length ≤ limit) := by
  have h := (Inflate.obeys_stream { bits := .ofBytes bytes } rfl).2 limit (Nat.zero_le _)
  simp only [inflateWithin?, inflate?, Inflater.within] at h ⊢
  rw [h]
  cases Inflate.stream { bits := .ofBytes bytes } with
  | none => rfl
  | some r => by_cases hfit : r.2.content.size ≤ limit <;> simp [hfit, Option.filter]

end SamplingProfile.Zlib
