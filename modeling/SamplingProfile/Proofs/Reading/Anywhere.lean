-- What a reader makes of some bytes does not depend on where they stand in the input. The place
-- of the first byte is kept for errors alone, so two readers that differ in nothing but the places
-- that they name agree on the value and on what is left. Readers keep this when they are put one
-- behind the other.
import SamplingProfile.Proofs.NameList

namespace SamplingProfile

namespace Reader

variable {α β κ : Type}

/-- What comes of reading, but for all places: the value and the bytes that are left. -/
def outcome (r : Reader α) (span : Span) : Option (α × List UInt8) :=
  (r span).toOption.map fun p => (p.1, p.2.bytes)

theorem outcome_of_ok {r : Reader α} {span rest : Span} {a : α} (h : r span = .ok (a, rest)) :
    r.outcome span = some (a, rest.bytes) := by
  rw [outcome, h]
  rfl

theorem outcome_of_error {r : Reader α} {span : Span} {e : ParseError} (h : r span = .error e) :
    r.outcome span = none := by
  rw [outcome, h]
  rfl

theorem outcome_bind_of_ok {r : Reader α} {f : α → Reader β} {span rest : Span} {a : α}
    (h : r span = .ok (a, rest)) : (r >>= f).outcome span = (f a).outcome rest := by
  unfold outcome
  rw [bind_of_ok h]

theorem outcome_bind_pure (r : Reader α) (f : α → β) (span : Span) :
    (r >>= fun a => pure (f a)).outcome span = (r.outcome span).map fun p => (f p.1, p.2) := by
  cases hr : r span with
  | error e =>
    rw [outcome_of_error hr, outcome_of_error (error_bind hr)]
    rfl
  | ok p =>
    rw [outcome_of_ok hr, outcome_bind_of_ok hr, outcome_of_ok (run_pure _ _)]
    rfl

/-- Two readers make the same of the same bytes, wherever these stand. -/
def Agrees (r r' : Reader α) : Prop :=
  ∀ span span' : Span, span.bytes = span'.bytes → r.outcome span = r'.outcome span'

/-! ## One reader behind the other -/

theorem Agrees.both {r r' : Reader α} (h : r.Agrees r') {span span' : Span}
    (hb : span.bytes = span'.bytes) :
    (∃ e e', r span = .error e ∧ r' span' = .error e') ∨
      ∃ a rest rest', r span = .ok (a, rest) ∧ r' span' = .ok (a, rest') ∧
        rest.bytes = rest'.bytes := by
  have hsame := h span span' hb
  cases hr : r span with
  | error e =>
    cases hr' : r' span' with
    | error e' => exact .inl ⟨e, e', rfl, rfl⟩
    | ok p => simp [outcome_of_error hr, outcome_of_ok hr'] at hsame
  | ok p =>
    cases hr' : r' span' with
    | error e' => simp [outcome_of_ok hr, outcome_of_error hr'] at hsame
    | ok p' =>
      rw [outcome_of_ok hr, outcome_of_ok hr', Option.some.injEq, Prod.mk.injEq] at hsame
      exact .inr ⟨p.1, p.2, p'.2, rfl, by rw [hsame.1], hsame.2⟩

theorem Agrees.bind {r r' : Reader α} {f f' : α → Reader β} (hr : r.Agrees r')
    (hf : ∀ a, (f a).Agrees (f' a)) : (r >>= f).Agrees (r' >>= f') := by
  intro span span' hb
  obtain ⟨e, e', he, he'⟩ | ⟨a, rest, rest', ha, ha', hrest⟩ := hr.both hb
  · rw [outcome_of_error (error_bind he), outcome_of_error (error_bind he')]
  · rw [outcome_bind_of_ok ha, outcome_bind_of_ok ha']
    exact hf a rest rest' hrest

theorem agrees_pure (a : α) : (pure a : Reader α).Agrees (pure a) := by
  intro span span' hb
  rw [outcome_of_ok (run_pure a span), outcome_of_ok (run_pure a span'), hb]

theorem agrees_of_error {r r' : Reader α} (h : ∀ span, ∃ e, r span = .error e)
    (h' : ∀ span, ∃ e, r' span = .error e) : r.Agrees r' := by
  intro span span' _
  obtain ⟨e, he⟩ := h span
  obtain ⟨e', he'⟩ := h' span'
  rw [outcome_of_error he, outcome_of_error he']

theorem agrees_throw (e e' : ParseError) : (throw e : Reader α).Agrees (throw e') :=
  agrees_of_error (fun _ => ⟨e, rfl⟩) fun _ => ⟨e', rfl⟩

theorem agrees_failAt (span span' : Span) (p : Problem) :
    (failAt span p : Reader α).Agrees (failAt span' p) := agrees_throw _ _

theorem agrees_fail (p : Problem) : (fail p : Reader α).Agrees (fail p) :=
  agrees_of_error (fun _ => ⟨_, rfl⟩) fun _ => ⟨_, rfl⟩

/-- A reader may look at the bytes that it has. -/
theorem agrees_get_bind {f f' : Span → Reader α}
    (hf : ∀ span span' : Span, span.bytes = span'.bytes → (f span).Agrees (f' span')) :
    (get >>= f).Agrees (get >>= f') := by
  intro span span' hb
  rw [outcome_bind_of_ok (run_get span), outcome_bind_of_ok (run_get span')]
  exact hf span span' hb span span' hb

theorem Agrees.within {r r' : Reader α} (hr : r.Agrees r') (part : Part) :
    (Reader.within part r).Agrees (Reader.within part r') := by
  intro span span' hb
  obtain ⟨e, e', he, he'⟩ | ⟨a, rest, rest', ha, ha', hrest⟩ := hr.both hb
  · have hpart : Reader.within part r span = .error (e.within part span.start) := by
      rw [Reader.within, he]
    have hpart' : Reader.within part r' span' = .error (e'.within part span'.start) := by
      rw [Reader.within, he']
    rw [outcome_of_error hpart, outcome_of_error hpart']
  · rw [outcome_of_ok (within_eq_ok.2 ha), outcome_of_ok (within_eq_ok.2 ha'), hrest]

/-! ## Bytes, numbers and texts -/

theorem holds_congr {span span' : Span} (hb : span.bytes = span'.bytes) (n : Nat) :
    span.holds n = span'.holds n := by
  rw [Bool.eq_iff_iff, Span.holds_iff, Span.holds_iff, hb]

theorem agrees_ensure (n : Nat) : (ensure n).Agrees (ensure n) := by
  refine agrees_get_bind fun span span' hb => ?_
  rw [holds_congr hb]
  split
  · exact agrees_pure ()
  · exact agrees_failAt span span' _

theorem agrees_take (n : Nat) : (take n).Agrees (take n) := by
  intro span span' hb
  unfold outcome take Span.drop
  rw [hb]
  rfl

theorem agrees_littleEndian (width : Nat) : (littleEndian width).Agrees (littleEndian width) := by
  refine agrees_get_bind fun span span' hb => ?_
  rw [holds_congr hb]
  have hrest : (do return LittleEndian.decode (← take width) : Reader Nat).Agrees
      (do return LittleEndian.decode (← take width)) :=
    (agrees_take width).bind fun bytes => agrees_pure _
  split
  · exact hrest
  · exact (agrees_failAt span span' _).bind fun _ => hrest

theorem agrees_leb128 : leb128.Agrees leb128 := by
  intro span span' hb
  unfold outcome leb128 Span.drop
  rw [hb]
  split <;> rfl

theorem agrees_text (n : Nat) : (text n).Agrees (text n) := by
  refine agrees_get_bind fun span span' _ => (agrees_ensure n).bind fun _ =>
    (agrees_take n).bind fun bytes => ?_
  split
  · exact agrees_pure _
  · exact agrees_failAt span span' _

/-! ## Repetitions -/

theorem Agrees.repeated {r : Reader α} (hr : r.Agrees r) (n : Nat) :
    (repeated r n).Agrees (repeated r n) := by
  induction n with
  | zero => exact agrees_pure []
  | succ n ih => exact hr.bind fun a => ih.bind fun rest => agrees_pure (a :: rest)

theorem Agrees.distinct [DecidableEq κ] {r : Reader (κ × β)} (hr : r.Agrees r) (p : Problem)
    (n : Nat) (met : List κ) : (Reader.distinct p r n met).Agrees (Reader.distinct p r n met) := by
  induction n generalizing met with
  | zero => exact agrees_pure []
  | succ n ih =>
    refine agrees_get_bind fun span span' _ => hr.bind fun entry => ?_
    have hrest : (do return entry :: (← Reader.distinct p r n (entry.1 :: met)) : Reader _).Agrees
        (do return entry :: (← Reader.distinct p r n (entry.1 :: met))) :=
      (ih _).bind fun rest => agrees_pure _
    split
    · exact (agrees_failAt span span' p).bind fun _ => hrest
    · exact hrest

end Reader

open Reader

/-! ## Lists of names -/

namespace NameList

theorem agrees_name : name.Agrees name := agrees_leb128.bind agrees_text

theorem agrees_names (room : Nat) : (names room).Agrees (names room) := by
  induction room with
  | zero => exact agrees_pure []
  | succ room ih =>
    refine agrees_get_bind fun span span' hb => ?_
    have hmore : (do
        let first ← name
        return first :: (← names room) : Reader (List String)).Agrees (do
        let first ← name
        return first :: (← names room)) :=
      agrees_name.bind fun first => ih.bind fun rest => agrees_pure _
    rw [hb]
    split
    · exact agrees_pure []
    · exact hmore

/-- The names of a payload are the same wherever it stands. -/
theorem toOption_payloadNames (start start' : Nat) (bytes : List UInt8) :
    (payloadNames ⟨start, bytes⟩).toOption = (payloadNames ⟨start', bytes⟩).toOption := by
  have hbytes : Span.bytes ⟨start, bytes⟩ = Span.bytes ⟨start', bytes⟩ := rfl
  unfold payloadNames
  obtain ⟨e, e', he, he'⟩ | ⟨found, rest, rest', hfound, hfound', -⟩ :=
    (agrees_names bytes.length).both hbytes
  · rw [he, he']
    rfl
  · rw [hfound, hfound']

theorem toOption_mapError {ε ε' α : Type} (f : ε → ε') (x : Except ε α) :
    (x.mapError f).toOption = x.toOption := by
  cases x <;> rfl

theorem toOption_compressedNames (start size : Nat) (packed : List UInt8) :
    (compressedNames ⟨start, packed⟩ size).toOption =
      ((Zlib.inflate? packed).filter fun plain => plain.length = size).bind fun plain =>
        (payloadNames (.ofBytes plain)).toOption := by
  unfold compressedNames
  rw [Zlib.inflateWithin?_eq]
  cases Zlib.inflate? packed with
  | none => rfl
  | some plain =>
    by_cases hsize : plain.length = size
    · subst hsize
      simp only [Option.filter_some, Nat.le_refl, decide_true, if_true, ne_eq, not_true_eq_false,
        if_false, Option.bind_some]
      cases payloadNames (.ofBytes plain) <;> rfl
    · by_cases hle : plain.length ≤ size
      · simp [Option.filter_some, hsize, hle, Except.toOption]
      · simp [Option.filter_some, hsize, hle, Except.toOption]

/-- The names that are stored are the same wherever they are stored. -/
theorem toOption_storedNames (size compressed start start' : Nat) (stored : List UInt8) :
    (storedNames size compressed ⟨start, stored⟩).toOption =
      (storedNames size compressed ⟨start', stored⟩).toOption := by
  unfold storedNames
  by_cases hc : compressed = 0
  · rw [if_pos hc, if_pos hc, toOption_mapError, toOption_mapError]
    exact toOption_payloadNames start start' stored
  · rw [if_neg hc, if_neg hc, toOption_compressedNames, toOption_compressedNames]

theorem agrees_counted (count : Nat) (span span' : Span) {x x' : Except ParseError (List String)}
    (h : x.toOption = x'.toOption) : (counted count span x).Agrees (counted count span' x') := by
  cases x with
  | error e =>
    cases x' with
    | error e' => exact agrees_throw e e'
    | ok found => cases h
  | ok found =>
    cases x' with
    | error e' => cases h
    | ok found' =>
      cases h
      rw [counted, counted]
      split
      · exact agrees_pure found
      · exact agrees_failAt span span' _

theorem agrees_readStored (count size compressed : Nat) :
    (readStored count size compressed).Agrees (readStored count size compressed) := by
  rw [readStored_eq]
  exact agrees_get_bind fun span span' _ => (agrees_ensure _).bind fun _ =>
    (agrees_take _).bind fun bytes =>
      agrees_counted count span span' (toOption_storedNames size compressed _ _ bytes)

theorem agrees_read : NameList.read.Agrees NameList.read := by
  rw [read_eq]
  exact agrees_leb128.bind fun count => agrees_leb128.bind fun size =>
    agrees_leb128.bind fun compressed => agrees_readStored count size compressed

end NameList

end SamplingProfile
