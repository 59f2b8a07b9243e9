-- Where errors are met. A reader stops at a byte that it was given, or behind the last one, and
-- what it leaves ends where that ended. The parts around an error begin where it was met or before
-- it, the outer ones before the inner ones. Readers keep this when they are put one behind the
-- other, and a reader may still stop at a byte that it remembers.
import SamplingProfile.Proofs.Reading.Delimited

namespace SamplingProfile

/-- The place behind the last byte. -/
def Span.stop (s : Span) : Nat := s.start + s.bytes.length

theorem Span.start_le_stop (s : Span) : s.start ≤ s.stop := Nat.le_add_right ..

theorem Span.stop_drop {s : Span} {n : Nat} (h : n ≤ s.bytes.length) :
    (s.drop n).stop = s.stop := by
  simp only [stop, drop, List.length_drop]
  omega

/-! ## Errors -/

namespace ParseError

variable {e : ParseError} {first last : Nat}

/-- Where the error was met, and where the parts around it began, the inner before the outer. -/
def positions (e : ParseError) : List Nat := e.offset :: e.parts.map Prod.snd

/-- The error was met between two places of the input. What is around it began there as well, and
nothing began behind what it contains. -/
structure Between (e : ParseError) (first last : Nat) : Prop where
  nested : e.positions.Pairwise fun inner outer => outer ≤ inner
  bounds : ∀ n ∈ e.positions, first ≤ n ∧ n ≤ last

theorem between_of_offset {problem : Problem} {offset : Nat} (hfirst : first ≤ offset)
    (hlast : offset ≤ last) : ({ problem, offset } : ParseError).Between first last :=
  ⟨List.pairwise_singleton _ _, List.forall_mem_singleton.2 ⟨hfirst, hlast⟩⟩

theorem Between.mono {first' last' : Nat} (h : e.Between first last) (hfirst : first' ≤ first)
    (hlast : last ≤ last') : e.Between first' last' := by
  refine ⟨h.nested, fun n hn => ?_⟩
  have := h.bounds n hn
  omega

/-- What is around all bytes that were looked at began before the error and all parts around it. -/
theorem Between.within (h : e.Between first last) (part : Part) :
    (e.within part first).Between first last := by
  have hpositions : (e.within part first).positions = e.positions ++ [first] := by
    simp [positions, ParseError.within]
  constructor
  · rw [hpositions, List.pairwise_append]
    refine ⟨h.nested, List.pairwise_singleton _ _, fun n hn m hm => ?_⟩
    rw [List.mem_singleton.1 hm]
    exact (h.bounds n hn).1
  · rw [hpositions]
    refine List.forall_mem_append.2 ⟨h.bounds, List.forall_mem_singleton.2 ⟨Nat.le_refl _, ?_⟩⟩
    have := h.bounds e.offset List.mem_cons_self
    omega

theorem map_snd_steps (e : ParseError) :
    e.steps.map Prod.snd = e.offset :: (e.problem.detail?.toList.map fun _ => e.offset)
      ++ e.parts.map Prod.snd := by
  simp [steps, Function.comp_def]

/-- What the steps of an error tell of places the error tells. -/
theorem Between.steps (h : e.Between first last) :
    (e.steps.map Prod.snd).Pairwise (fun inner outer => outer ≤ inner) ∧
      ∀ n ∈ e.steps.map Prod.snd, first ≤ n ∧ n ≤ last := by
  have hoffset := h.bounds e.offset List.mem_cons_self
  have hparts := (List.forall_mem_cons.1 h.bounds).2
  have hnested := List.pairwise_cons.1 h.nested
  rw [map_snd_steps]
  cases e.problem.detail? with
  | none => exact ⟨h.nested, h.bounds⟩
  | some text =>
    refine ⟨List.pairwise_cons.2 ⟨?_, h.nested⟩, List.forall_mem_cons.2 ⟨hoffset, h.bounds⟩⟩
    exact List.forall_mem_cons.2 ⟨Nat.le_refl _, hnested.1⟩

end ParseError

/-! ## Readers -/

namespace Reader

variable {α β κ : Type} {problems : Problem → Prop} {first : Nat} {r : Reader α}

/-- What a reader makes of a span. It leaves an end of the span, or it stops for one of some
problems that was met at `first` or behind it, and not behind the end. -/
def LocatedAt (problems : Problem → Prop) (first : Nat) (span : Span) :
    Except ParseError (α × Span) → Prop
  | .ok (_, rest) => span.start ≤ rest.start ∧ rest.stop = span.stop
  | .error e => problems e.problem ∧ e.Between first span.stop

/-- A reader that begins at `first` or behind it leaves an end of what it is given, or stops between
`first` and the end for one of some problems. -/
def Located (problems : Problem → Prop) (first : Nat) (r : Reader α) : Prop :=
  ∀ span, first ≤ span.start → LocatedAt problems first span (r span)

theorem located_pure (a : α) : Located problems first (pure a : Reader α) :=
  fun _ _ => ⟨Nat.le_refl _, rfl⟩

theorem Located.bind {f : α → Reader β} (hr : r.Located problems first)
    (hf : ∀ a, (f a).Located problems first) : (r >>= f).Located problems first := by
  intro span hfirst
  have hspan := hr span hfirst
  rw [run_bind]
  cases hrun : r span with
  | error e =>
    rw [hrun] at hspan
    exact hspan
  | ok p =>
    obtain ⟨a, middle⟩ := p
    rw [hrun] at hspan
    obtain ⟨hstart, hstop⟩ := hspan
    have hmiddle := hf a middle (Nat.le_trans hfirst hstart)
    change LocatedAt problems first span (f a middle)
    cases hmore : f a middle with
    | error e =>
      rw [hmore] at hmiddle
      exact ⟨hmiddle.1, hstop ▸ hmiddle.2⟩
    | ok q =>
      rw [hmore] at hmiddle
      exact ⟨Nat.le_trans hstart hmiddle.1, hmiddle.2.trans hstop⟩

/-- A problem of the place where one began to look. -/
theorem located_failAt {p : Problem} (hp : problems p) {span : Span} (h : span.start = first) :
    (failAt span p : Reader α).Located problems first := by
  subst h
  intro span' hfirst
  exact ⟨hp, ParseError.between_of_offset (Nat.le_refl _)
    (Nat.le_trans hfirst span'.start_le_stop)⟩

theorem located_fail {p : Problem} (hp : problems p) :
    (fail p : Reader α).Located problems first :=
  fun span hfirst => ⟨hp, ParseError.between_of_offset hfirst span.start_le_stop⟩

/-- A reader that remembers where it began stops nowhere before that. -/
theorem located_get_bind {f : Span → Reader α}
    (hf : ∀ span, (f span).Located problems span.start) :
    (get >>= f).Located problems first := by
  intro span hfirst
  have hspan := hf span span (Nat.le_refl _)
  rw [bind_of_ok (run_get span)]
  cases hrun : f span span with
  | error e =>
    rw [hrun] at hspan
    exact ⟨hspan.1, hspan.2.mono hfirst (Nat.le_refl _)⟩
  | ok p =>
    rw [hrun] at hspan
    exact hspan

/-- A reader that may begin anywhere tells the part that it reads. -/
theorem located_within (part : Part) (hr : ∀ first, r.Located problems first) :
    (within part r).Located problems first := by
  intro span hfirst
  have hspan := hr span.start span (Nat.le_refl _)
  unfold within
  cases hrun : r span with
  | error e =>
    rw [hrun] at hspan
    exact ⟨hspan.1, (hspan.2.within part).mono hfirst (Nat.le_refl _)⟩
  | ok p =>
    rw [hrun] at hspan
    exact hspan

/-- A delimited reader leaves what is behind the bytes that it took, and tells their number. -/
theorem Delimited.exists_used (hr : r.Delimited) {span rest : Span} {a : α}
    (h : r span = .ok (a, rest)) :
    ∃ used, span.bytes = used ++ rest.bytes ∧ rest.start = span.start + used.length := by
  obtain ⟨used, hused, htake, -⟩ := hr span a rest h
  have hrun : r ⟨span.start, used ++ rest.bytes⟩ = .ok (a, rest) := by
    rw [← hused]
    exact h
  exact ⟨used, hused, congrArg Span.start (htake.rest_eq hrun)⟩

/-- What a delimited reader leaves is the end of what it was given. -/
theorem Delimited.stop_eq (hr : r.Delimited) {span rest : Span} {a : α}
    (h : r span = .ok (a, rest)) : span.start ≤ rest.start ∧ rest.stop = span.stop := by
  obtain ⟨used, hused, hstart⟩ := hr.exists_used h
  have hlength := congrArg List.length hused
  rw [List.length_append] at hlength
  simp only [Span.stop]
  omega

/-- A delimited reader that stops where it began. -/
theorem Delimited.located (hr : r.Delimited)
    (he : ∀ span e, r span = .error e →
      ∃ p, problems p ∧ e = { problem := p, offset := span.start }) :
    r.Located problems first := by
  intro span hfirst
  cases hrun : r span with
  | error e =>
    obtain ⟨p, hp, rfl⟩ := he span e hrun
    exact ⟨hp, ParseError.between_of_offset hfirst span.start_le_stop⟩
  | ok p => exact hr.stop_eq hrun

/-! ## Bytes, numbers and texts -/

theorem located_ensure (hp : problems .lengthExceedsInput) (n : Nat) :
    (ensure n).Located problems first := by
  refine located_get_bind fun span => ?_
  split
  · exact located_pure ()
  · exact located_failAt hp rfl

theorem located_littleEndian (hp : problems .missingBytes) (width : Nat) :
    (littleEndian width).Located problems first := by
  refine (delimited_littleEndian width).located fun span e h => ?_
  rw [littleEndian, bind_of_ok (run_get _)] at h
  split at h
  · cases h
  · cases h
    exact ⟨_, hp, rfl⟩

theorem located_leb128 (hp : problems .truncatedNumber) (hp' : problems .oversizedNumber) :
    leb128.Located problems first := by
  refine delimited_leb128.located fun span e h => ?_
  unfold leb128 at h
  split at h
  · cases h
  · cases h
    exact ⟨_, hp, rfl⟩
  · cases h
    exact ⟨_, hp', rfl⟩

theorem located_text (hp : problems .lengthExceedsInput) (hp' : problems .invalidText) (n : Nat) :
    (text n).Located problems first := by
  refine (delimited_text n).located fun span e h => ?_
  rw [text, bind_of_ok (run_get _)] at h
  rcases Nat.lt_or_ge span.bytes.length n with hlt | hge
  · rw [error_bind (ensure_of_lt hlt)] at h
    cases h
    exact ⟨_, hp, rfl⟩
  · rw [bind_of_ok (ensure_of_le hge)] at h
    cases htext : decodeText? (span.bytes.take n) with
    | some s =>
      simp only [run_bind, take, Except.bind, htext] at h
      cases h
    | none =>
      simp only [run_bind, take, Except.bind, htext] at h
      cases h
      exact ⟨_, hp', rfl⟩

/-! ## Repetitions -/

theorem located_repeated (hr : r.Located problems first) (n : Nat) :
    (repeated r n).Located problems first := by
  induction n with
  | zero => exact located_pure []
  | succ n ih => exact hr.bind fun a => ih.bind fun rest => located_pure (a :: rest)

theorem located_distinct [DecidableEq κ] {r : Reader (κ × β)} {p : Problem} (hp : problems p)
    (hr : ∀ first, r.Located problems first) (n : Nat) (met : List κ) :
    (distinct p r n met).Located problems first := by
  induction n generalizing first met with
  | zero => exact located_pure []
  | succ n ih =>
    refine located_get_bind fun span => (hr span.start).bind fun entry => ?_
    split
    · exact (located_failAt hp rfl).bind fun _ => (ih _).bind fun _ => located_pure _
    · exact (ih _).bind fun _ => located_pure _

end Reader

end SamplingProfile
