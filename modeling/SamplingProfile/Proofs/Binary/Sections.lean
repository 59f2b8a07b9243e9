-- A binary profile in front of its last check. All of its sections are read first, and only
-- then is it asked whether anything follows them. Both halves of the question what becomes of
-- an input, of one that is cut off and of one that goes on, start from here.
import SamplingProfile.Profile

namespace SamplingProfile

open Binary

namespace Binary.Layout

/-- All sections behind the version number, whatever follows them. -/
def readSections (l : Layout) : Reader (Store × Option Summary) := do
  let summary ← Reader.within .summary l.readSummary
  let table ← Reader.within .nameTable l.readTable
  let count ← l.readSmall
  let functions ← Reader.distinct .duplicateFunction (l.readEntry table) count []
  return (.ofList (functions.map Prod.snd), summary)

theorem readContent_eq (l : Layout) :
    l.readContent = do
      let content ← l.readSections
      if (← get).bytes ≠ [] then Reader.fail .trailingData
      return content := by
  simp only [readContent, readSections, bind_assoc, pure_bind]

theorem readContent_of_sections {l : Layout} {span rest : Span} {content : Store × Option Summary}
    (h : l.readSections span = .ok (content, rest)) :
    l.readContent span = if rest.bytes = [] then .ok (content, rest)
      else .error { problem := .trailingData, offset := rest.start } := by
  rw [readContent_eq, Reader.bind_of_ok h, Reader.bind_of_ok (Reader.run_get rest)]
  by_cases hb : rest.bytes = []
  · rw [if_pos hb, if_neg (not_not_intro hb)]
    rfl
  · rw [if_neg hb, if_pos hb]
    rfl

theorem readContent_of_error {l : Layout} {span : Span} {e : ParseError}
    (h : l.readSections span = .error e) : l.readContent span = .error e := by
  rw [readContent_eq, Reader.run_bind, h]
  rfl

end Binary.Layout

namespace Profile

/-- The version number and the sections behind it, whatever follows them. -/
def readVersioned : Reader Profile := do
  match Version.ofNumber? (← Reader.littleEndian 8) with
  | some v =>
    let content ← v.layout.readSections
    return { format := .binary v, store := content.1, summary? := content.2 }
  | none => Reader.fail .unsupportedVersion

theorem hasMagic_append (tail : List UInt8) : hasMagic (magic ++ tail) = true := by
  simp [hasMagic, magic]

theorem append_of_hasMagic {bytes : List UInt8} (h : hasMagic bytes = true) :
    bytes = magic ++ bytes.drop 8 := by
  have htake : bytes.take 8 = magic := of_decide_eq_true h
  rw [← htake, List.take_append_drop]

theorem readHeader_append (tail : List UInt8) :
    readHeader (.ofBytes (magic ++ tail)) = Reader.littleEndian 8 ⟨8, tail⟩ := by
  have hm : hasMagic (Span.ofBytes (magic ++ tail)).bytes = true := hasMagic_append tail
  rw [readHeader, Reader.bind_of_ok (Reader.run_get _), if_pos hm]
  rfl

/-! ## A whole input -/

theorem ofBytes_append (tail : List UInt8) :
    Profile.ofBytes (magic ++ tail) = Profile.ofBinary (magic ++ tail) := by
  rw [Profile.ofBytes, if_pos (hasMagic_append tail)]

/-- An input whose sections are read is a profile if nothing follows them. -/
theorem ofBytes_of_versioned {tail : List UInt8} {p : Profile} {rest : Span}
    (h : readVersioned ⟨8, tail⟩ = .ok (p, rest)) :
    Profile.ofBytes (magic ++ tail) = if rest.bytes = [] then .ok p
      else .error (.malformed { problem := .trailingData, offset := rest.start }) := by
  obtain ⟨number, middle, hn, h'⟩ := Reader.bind_eq_ok.1 h
  simp only [ofBytes_append, Profile.ofBinary, readHeader_append, hn]
  cases hv : Version.ofNumber? number with
  | none =>
    rw [hv] at h'
    cases h'
  | some v =>
    rw [hv] at h'
    obtain ⟨content, rest', hs, hret⟩ := Reader.bind_eq_ok.1 h'
    cases hret
    simp only [Profile.ofBinaryContent, Reader.run_bind, Layout.readContent_of_sections hs]
    by_cases hb : rest.bytes = []
    · rw [if_pos hb, if_pos hb]
      rfl
    · rw [if_neg hb, if_neg hb]
      rfl

/-- An input whose sections are not read is no profile. -/
theorem ofBytes_of_versioned_error {tail : List UInt8} {e : ParseError}
    (h : readVersioned ⟨8, tail⟩ = .error e) :
    ∃ refusal, Profile.ofBytes (magic ++ tail) = .error refusal ∧
      (e.problem ≠ .unsupportedVersion → refusal = .malformed e) := by
  rw [ofBytes_append, Profile.ofBinary, readHeader_append]
  rw [readVersioned, Reader.run_bind] at h
  cases hn : Reader.littleEndian 8 ⟨8, tail⟩ with
  | error e' =>
    rw [hn] at h
    cases h
    exact ⟨_, rfl, fun _ => rfl⟩
  | ok r =>
    obtain ⟨number, middle⟩ := r
    simp only [hn, Except.bind] at h ⊢
    cases hv : Version.ofNumber? number with
    | none =>
      rw [hv] at h
      cases h
      exact ⟨_, rfl, fun hne => absurd rfl hne⟩
    | some v =>
      rw [hv] at h
      simp only [Reader.run_bind, Profile.ofBinaryContent] at h ⊢
      cases hs : v.layout.readSections middle with
      | error e' =>
        rw [hs] at h
        cases h
        rw [Layout.readContent_of_error hs]
        exact ⟨_, rfl, fun _ => rfl⟩
      | ok r' =>
        rw [hs] at h
        cases h

theorem format_of_ofText {bytes : List UInt8} {p : Profile} (h : Profile.ofText bytes = .ok p) :
    p.format = .text := by
  unfold Profile.ofText at h
  cases hr : Text.read bytes with
  | error e =>
    rw [hr] at h
    cases h
  | ok s =>
    rw [hr] at h
    cases h
    rfl

/-- What is read as a profile has the magic bytes in front, then its sections, and nothing behind;
or it is a text. -/
theorem sections_or_ofText {bytes : List UInt8} {p : Profile} (h : Profile.ofBytes bytes = .ok p) :
    (∃ tail rest, bytes = magic ++ tail ∧ readVersioned ⟨8, tail⟩ = .ok (p, rest) ∧
      rest.bytes = []) ∨ Profile.ofText bytes = .ok p := by
  cases hm : hasMagic bytes with
  | true =>
    have hb := append_of_hasMagic hm
    generalize bytes.drop 8 = tail at hb
    subst hb
    cases hr : readVersioned ⟨8, tail⟩ with
    | ok r =>
      obtain ⟨q, rest⟩ := r
      rw [ofBytes_of_versioned hr] at h
      split at h
      · rename_i hrest
        cases h
        exact .inl ⟨tail, rest, rfl, hr, hrest⟩
      · cases h
    | error e =>
      obtain ⟨refusal, he, -⟩ := ofBytes_of_versioned_error hr
      rw [he] at h
      cases h
  | false =>
    rw [Profile.ofBytes, hm, if_neg Bool.false_ne_true] at h
    split at h
    · cases ht : Profile.ofText bytes with
      | error e =>
        rw [ht] at h
        cases h
      | ok q =>
        rw [ht] at h
        cases h
        exact .inr rfl
    · cases h

theorem versioned_of_ofBytes {bytes : List UInt8} {p : Profile} {v : Version}
    (h : Profile.ofBytes bytes = .ok p) (hp : p.format = .binary v) :
    ∃ tail rest, bytes = magic ++ tail ∧ readVersioned ⟨8, tail⟩ = .ok (p, rest) ∧
      rest.bytes = [] := by
  rcases sections_or_ofText h with hsections | htext
  · exact hsections
  · rw [format_of_ofText htext] at hp
    cases hp

end Profile

end SamplingProfile
