-- How far readers come. One that takes a byte or more leaves less to the next, so a loop over what
-- it reads ends when the bytes do, however many rounds were announced. And what is made of the
-- bytes is paid for with them, part by part.
import SamplingProfile.Proofs.Reading.Delimited

namespace SamplingProfile

namespace Reader

variable {α : Type}

/-- The reader leaves a part of the bytes that stand at their end, and not all of them. -/
def Progresses (r : Reader α) : Prop :=
  ∀ span a rest, r span = .ok (a, rest) → ∃ used, used ≠ [] ∧ span.bytes = used ++ rest.bytes

theorem Delimited.progresses {r : Reader α} (hd : r.Delimited) (hc : r.Consuming) :
    r.Progresses := by
  intro span a rest h
  obtain ⟨used, hused, -, -⟩ := hd span a rest h
  refine ⟨used, ?_, hused⟩
  rintro rfl
  have hlt := hc span a rest h
  rw [hused] at hlt
  exact Nat.lt_irrefl _ hlt

end Reader

/-! ## Loops -/

/-- A loop with a limit for its rounds. A round either ends the loop, whatever the limit is, or
leads on to the next one, which has one round less. -/
structure Loop (σ α : Type) where
  /-- What the loop gives with a limit, from a state on. -/
  run : (limit : Nat) → σ → Reader α
  /-- The state and the bytes that a round leads to, if it does not end the loop. -/
  next : σ → Span → Option (σ × Span)
  run_of_none : ∀ {s span}, next s span = none →
    ∀ limit, run (limit + 1) s span = run 1 s span
  run_of_some : ∀ {s span s' rest}, next s span = some (s', rest) →
    ∃ back : Except ParseError (α × Span) → Except ParseError (α × Span),
      ∀ limit, run (limit + 1) s span = back (run limit s' rest)

namespace Loop

variable {σ α β κ : Type}

/-- The number of rounds that are begun. -/
def rounds (loop : Loop σ α) : (limit : Nat) → σ → Span → Nat
  | 0, _, _ => 0
  | limit + 1, s, span =>
    match loop.next s span with
    | none => 1
    | some (s', rest) => loop.rounds limit s' rest + 1

/-- What the loop gives comes of the rounds that are begun. -/
theorem run_rounds (loop : Loop σ α) (limit : Nat) (s : σ) (span : Span) :
    loop.run (loop.rounds limit s span) s span = loop.run limit s span := by
  induction limit generalizing s span with
  | zero => rfl
  | succ limit ih =>
    unfold rounds
    cases hnext : loop.next s span with
    | none => exact (loop.run_of_none hnext limit).symm
    | some after =>
      obtain ⟨back, hback⟩ := loop.run_of_some hnext
      rw [hback, hback, ih]

/-- The loop ends when the bytes do: a round that leads on leaves less of them, so there are no more
rounds than bytes and one more, which ends the loop. -/
structure Ends (loop : Loop σ α) : Prop where
  progress : ∀ {s span s' rest}, loop.next s span = some (s', rest) →
    ∃ used, used ≠ [] ∧ span.bytes = used ++ rest.bytes
  rounds_le : ∀ limit s span, loop.rounds limit s span ≤ span.bytes.length + 1
  run_rounds : ∀ limit s span,
    loop.run (loop.rounds limit s span) s span = loop.run limit s span

theorem ends_of_progress {loop : Loop σ α} (h : ∀ {s span s' rest},
    loop.next s span = some (s', rest) → ∃ used, used ≠ [] ∧ span.bytes = used ++ rest.bytes) :
    loop.Ends := by
  refine ⟨h, fun limit => ?_, loop.run_rounds⟩
  induction limit with
  | zero => exact fun s span => Nat.zero_le _
  | succ limit ih =>
    intro s span
    unfold rounds
    cases hnext : loop.next s span with
    | none => exact Nat.le_add_left 1 _
    | some after =>
      obtain ⟨used, hne, hused⟩ := h hnext
      have hpos := List.length_pos_iff.2 hne
      have hrest := ih after.1 after.2
      rw [hused, List.length_append]
      dsimp only
      omega

/-- The loop that reads a number of values. -/
def repeated (r : Reader α) : Loop Unit (List α) where
  run limit _ := Reader.repeated r limit
  next _ span :=
    match r span with
    | .ok (_, rest) => some ((), rest)
    | .error _ => none
  run_of_none {_ span} h limit := by
    split at h
    · cases h
    · rename_i e hr
      rw [Reader.repeated, Reader.error_bind hr, Reader.repeated, Reader.error_bind hr]
  run_of_some {_ span _ rest} h := by
    split at h
    · rename_i a middle hr
      cases h
      refine ⟨fun more => more.bind fun m => .ok (a :: m.1, m.2), fun limit => ?_⟩
      rw [Reader.repeated, Reader.bind_of_ok hr]
      rfl
    · cases h

/-- The loop that reads a number of entries under keys that are all different. The keys that were
met are its state. -/
def distinct [DecidableEq κ] (problem : Problem) (r : Reader (κ × β)) :
    Loop (List κ) (List (κ × β)) where
  run limit met := Reader.distinct problem r limit met
  next met span :=
    match r span with
    | .ok (entry, rest) => if entry.1 ∈ met then none else some (entry.1 :: met, rest)
    | .error _ => none
  run_of_none {met span} h limit := by
    split at h
    · rename_i entry rest hr
      split at h
      · rename_i hmet
        simp only [Reader.distinct, Reader.bind_of_ok (Reader.run_get span),
          Reader.bind_of_ok hr, if_pos hmet]
        rfl
      · cases h
    · rename_i e hr
      simp only [Reader.distinct, Reader.bind_of_ok (Reader.run_get span), Reader.error_bind hr]
  run_of_some {met span met' rest} h := by
    split at h
    · rename_i entry middle hr
      split at h
      · cases h
      · rename_i hmet
        cases h
        refine ⟨fun more => more.bind fun m => .ok (entry :: m.1, m.2), fun limit => ?_⟩
        simp only [Reader.distinct, Reader.bind_of_ok (Reader.run_get span),
          Reader.bind_of_ok hr, if_neg hmet]
        rfl
    · cases h

/-- The loop that reads names up to the end of the bytes. -/
def names : Loop Unit (List String) where
  run limit _ := NameList.names limit
  next _ span :=
    if span.bytes.isEmpty then none
    else
      match NameList.name span with
      | .ok (_, rest) => some ((), rest)
      | .error _ => none
  run_of_none {_ span} h limit := by
    split at h
    · rename_i hempty
      simp only [NameList.names, Reader.bind_of_ok (Reader.run_get span), if_pos hempty]
    · rename_i hmore
      split at h
      · cases h
      · rename_i e hr
        simp only [NameList.names, Reader.bind_of_ok (Reader.run_get span), if_neg hmore,
          Reader.error_bind hr]
  run_of_some {_ span _ rest} h := by
    split at h
    · cases h
    · rename_i hmore
      split at h
      · rename_i name middle hr
        cases h
        refine ⟨fun more => more.bind fun m => .ok (name :: m.1, m.2), fun limit => ?_⟩
        simp only [NameList.names, Reader.bind_of_ok (Reader.run_get span), if_neg hmore,
          Reader.bind_of_ok hr]
        rfl
      · cases h

theorem ends_repeated {r : Reader α} (h : r.Progresses) : (repeated r).Ends := by
  refine ends_of_progress fun {_ span _ rest} hnext => ?_
  dsimp only [repeated] at hnext
  split at hnext
  · rename_i a middle hr
    cases hnext
    exact h span a rest hr
  · cases hnext

theorem ends_distinct [DecidableEq κ] (problem : Problem) {r : Reader (κ × β)}
    (h : r.Progresses) : (distinct problem r).Ends := by
  refine ends_of_progress fun {_ span _ rest} hnext => ?_
  dsimp only [distinct] at hnext
  split at hnext
  · rename_i entry middle hr
    split at hnext
    · cases hnext
    · cases hnext
      exact h span entry rest hr
  · cases hnext

theorem ends_names (h : NameList.name.Progresses) : names.Ends := by
  refine ends_of_progress fun {_ span _ rest} hnext => ?_
  dsimp only [names] at hnext
  split at hnext
  · cases hnext
  · split at hnext
    · rename_i name middle hr
      cases hnext
      exact h span name rest hr
    · cases hnext

end Loop

/-! ## What the bytes pay for -/

namespace Reader

variable {α β κ : Type} {r : Reader α} {size : α → Nat} {size' : β → Nat} {credit : Nat}

/-- With every byte worth 1, the bytes that the reader takes pay for what it makes of them, up to a
credit that it has in advance. -/
def Affords (r : Reader α) (credit : Nat) (size : α → Nat) : Prop :=
  ∀ span a rest, r span = .ok (a, rest) →
    size a + rest.bytes.length ≤ span.bytes.length + credit

theorem affords_pure {a : α} (h : size a ≤ credit) : Affords (pure a) credit size := by
  intro span b rest hr
  cases hr
  omega

theorem affords_failAt (span : Span) (problem : Problem) :
    Affords (failAt span problem) credit size :=
  fun _ _ _ hr => nomatch hr

/-- What one reader has made is the credit of the next. -/
theorem Affords.bind {f : α → Reader β} (hr : r.Affords credit size)
    (hf : ∀ a, (f a).Affords (size a) size') : (r >>= f).Affords credit size' := by
  intro span b rest h
  obtain ⟨a, middle, ha, hb⟩ := bind_eq_ok.1 h
  have hfirst := hr span a middle ha
  have hsecond := hf a middle b rest hb
  omega

theorem affords_get_bind {f : Span → Reader β} (hf : ∀ span, (f span).Affords credit size') :
    Affords (get >>= f) credit size' := by
  intro span b rest h
  rw [bind_of_ok (run_get span)] at h
  exact hf span span b rest h

theorem affords_ensure (n credit : Nat) : (ensure n).Affords credit fun _ => credit := by
  intro span _ rest h
  obtain ⟨-, rfl⟩ := ensure_eq_ok.1 h
  exact Nat.le_of_eq (Nat.add_comm credit _)

theorem Affords.within (part : Part) (hr : r.Affords credit size) :
    (within part r).Affords credit size :=
  fun span a rest h => hr span a rest (within_eq_ok.1 h)

/-- What was there before is kept. -/
theorem Affords.keep (hr : r.Affords 0 size) (credit : Nat) :
    r.Affords credit fun a => size a + credit := by
  intro span a rest h
  have hpaid := hr span a rest h
  dsimp only
  omega

theorem Delimited.affords (hr : r.Delimited) (credit : Nat) : r.Affords credit fun _ => credit := by
  intro span a rest h
  have hle := hr.length_le h
  dsimp only
  omega

theorem Consuming.affords (hr : r.Consuming) (credit : Nat) :
    r.Affords credit fun _ => credit + 1 := by
  intro span a rest h
  have hlt := hr span a rest h
  dsimp only
  omega

/-- A reader that makes something of the bytes alone takes one or more of them. -/
theorem Affords.consuming (hr : r.Affords 0 size) (hsize : ∀ a, 1 ≤ size a) : r.Consuming := by
  intro span a rest h
  have hpaid := hr span a rest h
  have hone := hsize a
  omega

theorem Affords.repeated (hr : r.Affords 0 size) (n : Nat) :
    (repeated r n).Affords 0 fun list => (list.map size).sum := by
  induction n with
  | zero => exact affords_pure (Nat.le_refl 0)
  | succ n ih =>
    refine hr.bind fun a => (ih.keep (size a)).bind fun more => affords_pure ?_
    rw [List.map_cons, List.sum_cons, Nat.add_comm]

theorem Affords.distinct [DecidableEq κ] {r : Reader (κ × β)} {size : κ × β → Nat}
    (hr : r.Affords 0 size) (problem : Problem) (n : Nat) (met : List κ) :
    (distinct problem r n met).Affords 0 fun entries => (entries.map size).sum := by
  induction n generalizing met with
  | zero => exact affords_pure (Nat.le_refl 0)
  | succ n ih =>
    have hmore : ∀ entry : κ × β, Affords (do
        return entry :: (← Reader.distinct problem r n (entry.1 :: met)))
        (size entry) fun entries => (entries.map size).sum := by
      refine fun entry => ((ih _).keep (size entry)).bind fun more => affords_pure ?_
      rw [List.map_cons, List.sum_cons, Nat.add_comm]
    refine affords_get_bind fun span => hr.bind fun entry => ?_
    split
    · exact (affords_failAt span problem).bind fun _ => hmore entry
    · exact hmore entry

end Reader

end SamplingProfile
