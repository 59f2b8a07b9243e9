-- Readers: each takes what it needs from the front of a span of bytes and leaves the rest,
-- or stops with an error that says where. A span knows where it stands in the input.
import SamplingProfile.Reading.Problem
import SamplingProfile.Bytes.LittleEndian
import SamplingProfile.Bytes.Utf8

namespace SamplingProfile

/-- Bytes with the place of the first one in the input. -/
structure Span where
  start : Nat
  bytes : List UInt8
deriving DecidableEq, Repr

/-- All bytes of an input. -/
def Span.ofBytes (bytes : List UInt8) : Span := ⟨0, bytes⟩

/-- The span without its first `n` bytes. -/
def Span.drop (n : Nat) (s : Span) : Span := ⟨s.start + n, s.bytes.drop n⟩

/-- Whether the span has `n` bytes or more. It takes no more than `n` steps to know. -/
def Span.holds (s : Span) : Nat → Bool
  | 0 => true
  | n + 1 => !(s.bytes.drop n).isEmpty

theorem Span.holds_iff {s : Span} {n : Nat} : s.holds n ↔ n ≤ s.bytes.length := by
  cases n with
  | zero => simp [holds]
  | succ n =>
    simp only [holds, Bool.not_eq_true', List.isEmpty_eq_false_iff, ne_eq, List.drop_eq_nil_iff]
    omega

/-- What reads a value from the front of a span. -/
abbrev Reader (α : Type) := StateT Span (Except ParseError) α

namespace Reader

variable {α β κ : Type}

/-- Stops with a problem met at the front of a span. -/
def failAt (span : Span) (problem : Problem) : Reader α :=
  throw { problem, offset := span.start }

/-- Stops with a problem met here. -/
def fail (problem : Problem) : Reader α := do failAt (← get) problem

/-- Reads a part of a profile, which errors inside it name. -/
def within (part : Part) (r : Reader α) : Reader α := fun span =>
  match r span with
  | .ok result => .ok result
  | .error e => .error (e.within part span.start)

/-- Reads a value if it is there. A problem that no other form can avoid still stops. -/
def optional (r : Reader α) : Reader (Option α) := fun span =>
  match r span with
  | .ok (a, rest) => .ok (some a, rest)
  | .error e => if e.problem.isFatal then .error e else .ok (none, span)

/-- Stops unless `n` bytes are left. -/
def ensure (n : Nat) : Reader Unit := do
  let span ← get
  unless span.holds n do failAt span .lengthExceedsInput

/-- The next `n` bytes, which are there. -/
def take (n : Nat) : Reader (List UInt8) := fun span => .ok (span.bytes.take n, span.drop n)

/-- The number in the next `width` bytes, the lowest byte first. -/
def littleEndian (width : Nat) : Reader Nat := do
  let span ← get
  unless span.holds width do failAt span .missingBytes
  return LittleEndian.decode (← take width)

/-- A text of `n` bytes. -/
def text (n : Nat) : Reader String := do
  let span ← get
  ensure n
  match decodeText? (← take n) with
  | some s => return s
  | none => failAt span .invalidText

/-- `n` values, one after the other. -/
def repeated (r : Reader α) : (n : Nat) → Reader (List α)
  | 0 => return []
  | n + 1 => do
    let a ← r
    return a :: (← repeated r n)

/-- `n` entries, one after the other, none of them under a key that was met before. The
problem of a repeated key is met where its entry begins. -/
def distinct [DecidableEq κ] (problem : Problem) (r : Reader (κ × β)) :
    (n : Nat) → (met : List κ) → Reader (List (κ × β))
  | 0, _ => return []
  | n + 1, met => do
    let span ← get
    let entry ← r
    if entry.1 ∈ met then failAt span problem
    return entry :: (← distinct problem r n (entry.1 :: met))

/-! ## What readers do to a span -/

theorem run_pure (a : α) (span : Span) : (pure a : Reader α) span = .ok (a, span) := rfl

theorem run_get (span : Span) : (get : Reader Span) span = .ok (span, span) := rfl

theorem run_bind (r : Reader α) (f : α → Reader β) (span : Span) :
    (r >>= f) span = (r span).bind fun p => f p.1 p.2 := rfl

/-- Two readers one after the other succeed exactly when both do, each on what the one before
left. -/
theorem bind_eq_ok {r : Reader α} {f : α → Reader β} {span rest : Span} {b : β} :
    (r >>= f) span = .ok (b, rest) ↔
      ∃ a middle, r span = .ok (a, middle) ∧ f a middle = .ok (b, rest) := by
  rw [run_bind]
  cases r span with
  | error e => simp [Except.bind]
  | ok p =>
    constructor
    · intro h
      exact ⟨p.1, p.2, rfl, h⟩
    · rintro ⟨a, middle, h, hf⟩
      cases h
      exact hf

theorem bind_of_ok {r : Reader α} {f : α → Reader β} {span middle : Span} {a : α}
    (h : r span = .ok (a, middle)) : (r >>= f) span = f a middle := by
  rw [run_bind, h]
  rfl

theorem ensure_of_le {n : Nat} {span : Span} (h : n ≤ span.bytes.length) :
    ensure n span = .ok ((), span) := by
  rw [ensure, bind_of_ok (run_get span), if_pos (Span.holds_iff.2 h)]
  rfl

theorem ensure_of_lt {n : Nat} {span : Span} (h : span.bytes.length < n) :
    ensure n span = .error { problem := .lengthExceedsInput, offset := span.start } := by
  rw [ensure, bind_of_ok (run_get span),
    if_neg fun hn => Nat.not_le_of_lt h (Span.holds_iff.1 hn)]
  rfl

theorem take_append (start : Nat) (front back : List UInt8) :
    take front.length ⟨start, front ++ back⟩ = .ok (front, ⟨start + front.length, back⟩) := by
  simp [take, Span.drop]

/-- Bytes of fixed width read back as the number that they were written for. -/
theorem littleEndian_append (start width n : Nat) (back : List UInt8) :
    littleEndian width ⟨start, LittleEndian.encode width n ++ back⟩
      = .ok (n % LittleEndian.values width, ⟨start + width, back⟩) := by
  have htake := take_append start (LittleEndian.encode width n) back
  rw [LittleEndian.length_encode] at htake
  rw [littleEndian, bind_of_ok (run_get _), if_pos (Span.holds_iff.2 (by simp))]
  refine (bind_of_ok htake).trans ?_
  rw [LittleEndian.decode_encode]
  rfl

/-- A text reads back from its bytes. -/
theorem text_append (start : Nat) (s : String) (back : List UInt8) :
    text (encodeText s).length ⟨start, encodeText s ++ back⟩
      = .ok (s, ⟨start + (encodeText s).length, back⟩) := by
  rw [text, bind_of_ok (run_get _), bind_of_ok (ensure_of_le (by simp)),
    bind_of_ok (take_append start (encodeText s) back), decodeText?_encodeText]
  rfl

end Reader

end SamplingProfile
