-- The steps of an error, which say where a profile was refused. Whatever the form of the profile
-- and however deep the error, each step names a byte of the profile, and an outer step none behind
-- that of an inner one. What is wrong with compressed names is told of the compressed bytes.
import SamplingProfile.Proofs.Binary.Delimited
import SamplingProfile.Proofs.Binary.Positions
import SamplingProfile.Proofs.Text.Positions

namespace SamplingProfile

open Reader

/-! ## Compressed names -/

/-- What a delimited reader leaves of an input stands in the input where it says. -/
theorem Reader.Delimited.drop_eq {α : Type} {r : Reader α} (hr : r.Delimited) {span rest : Span}
    {a : α} {bytes : List UInt8} (h : r span = .ok (a, rest))
    (hspan : bytes.drop span.start = span.bytes) : bytes.drop rest.start = rest.bytes := by
  obtain ⟨used, hused, hstart⟩ := hr.exists_used h
  rw [hstart, ← List.drop_drop, hspan, hused, List.drop_left]

namespace NameList

/-- The three numbers in front of the names of a list. -/
def readNumbers : Reader (Nat × Nat × Nat) := do
  return (← leb128, ← leb128, ← leb128)

theorem read_eq_readNumbers :
    NameList.read = (do
      let numbers ← readNumbers
      readStored numbers.1 numbers.2.1 numbers.2.2) := by
  simp only [read_eq, readNumbers, bind_assoc, pure_bind]

theorem delimited_readNumbers : readNumbers.Delimited :=
  delimited_leb128.bind fun _ => delimited_leb128.bind fun _ => delimited_leb128.bind fun _ =>
    delimited_pure _

/-- Names that are wrong in the bytes that come out of a stream are wrong where it begins. -/
theorem readStored_of_error (count : Nat) {packed plain : List UInt8} {inner : ParseError}
    (hne : packed ≠ []) (hplain : Zlib.inflate? packed = some plain)
    (hinner : payloadNames (.ofBytes plain) = .error inner) (start : Nat) (back : List UInt8) :
    readStored count plain.length packed.length ⟨start, packed ++ back⟩
      = .error { problem := .malformedCompressedList, offset := start } := by
  have hlength : packed.length ≠ 0 := fun h => hne (List.length_eq_zero_iff.1 h)
  have hinflate : Zlib.inflateWithin? plain.length packed = some plain := by
    rw [Zlib.inflateWithin?_eq, hplain]
    simp [Option.filter]
  have hnames : storedNames plain.length packed.length ⟨start, packed⟩
      = .error { problem := .malformedCompressedList, offset := start } := by
    rw [storedNames, if_neg hlength, compressedNames, hinflate]
    dsimp only
    rw [if_neg (not_not_intro rfl), hinner]
  rw [readStored_append (if_neg hlength), hnames]
  rfl

end NameList

namespace Profile

open Binary

/-- A profile of the newest version whose name table begins at `table` and holds the compressed
bytes `packed`, from which `plain` comes out. -/
structure HoldsPacked (bytes : List UInt8) (table packed : Span) (plain : List UInt8) : Prop where
  front : ∃ content summary?, readHeader (.ofBytes bytes) = .ok (Version.compact.number, content) ∧
    Version.compact.layout.readSummary content = .ok (summary?, table)
  numbers : ∃ count back, NameList.readNumbers table
    = .ok ((count, plain.length, packed.bytes.length), ⟨packed.start, packed.bytes ++ back⟩)
  packed_ne : packed.bytes ≠ []
  inflated : Zlib.inflate? packed.bytes = some plain

variable {bytes plain : List UInt8} {table packed : Span}

theorem hasMagic_of_readHeader {number : Nat} {content : Span}
    (h : readHeader (.ofBytes bytes) = .ok (number, content)) : hasMagic bytes = true := by
  rw [readHeader, bind_of_ok (run_get _)] at h
  split at h
  · assumption
  · cases h

/-- The compressed bytes stand in the profile where the span says. -/
theorem HoldsPacked.isPrefix_drop (h : HoldsPacked bytes table packed plain) :
    packed.bytes <+: bytes.drop packed.start := by
  obtain ⟨content, summary?, hheader, hsummary⟩ := h.front
  obtain ⟨count, back, hnumbers⟩ := h.numbers
  have hmagic := append_of_hasMagic (hasMagic_of_readHeader hheader)
  rw [hmagic, readHeader_append] at hheader
  have hcontent : bytes.drop content.start = content.bytes :=
    (delimited_littleEndian 8).drop_eq hheader rfl
  have htable := (Layout.delimited_readSummary _).drop_eq hsummary hcontent
  have hpacked := NameList.delimited_readNumbers.drop_eq hnumbers htable
  exact ⟨back, hpacked.symm⟩

/-- What is wrong with the names that come out of compressed bytes is told of these bytes. -/
theorem HoldsPacked.ofBytes_eq (h : HoldsPacked bytes table packed plain) {inner : ParseError}
    (hinner : NameList.payloadNames (.ofBytes plain) = .error inner) :
    Profile.ofBytes bytes = .error (.malformed {
      problem := .malformedCompressedList
      offset := packed.start
      parts := [(.nameTable, table.start)] }) := by
  obtain ⟨content, summary?, hheader, hsummary⟩ := h.front
  obtain ⟨count, back, hnumbers⟩ := h.numbers
  have hread : Version.compact.layout.readTable table
      = .error { problem := .malformedCompressedList, offset := packed.start } := by
    have hstored := NameList.readStored_of_error count h.packed_ne h.inflated hinner
      packed.start back
    have hlist : NameList.read table
        = .error { problem := .malformedCompressedList, offset := packed.start } := by
      rw [NameList.read_eq_readNumbers, bind_of_ok hnumbers, hstored]
    exact error_bind hlist
  have hsections : Version.compact.layout.readSections content
      = .error { problem := .malformedCompressedList, offset := packed.start
                 parts := [(.nameTable, table.start)] } := by
    have htable : within .nameTable Version.compact.layout.readTable table
        = .error { problem := .malformedCompressedList, offset := packed.start
                   parts := [(.nameTable, table.start)] } := by
      rw [within, hread]
      rfl
    rw [Layout.readSections, bind_of_ok (within_eq_ok.2 hsummary)]
    exact error_bind htable
  have hcontent : ofBinaryContent .compact content
      = .error { problem := .malformedCompressedList, offset := packed.start
                 parts := [(.nameTable, table.start)] } :=
    error_bind (Layout.readContent_of_error hsections)
  have hversion : Version.ofNumber? Version.compact.number = some .compact :=
    Version.ofNumber?_eq_some_iff.2 rfl
  rw [Profile.ofBytes, if_pos (hasMagic_of_readHeader hheader), Profile.ofBinary, hheader]
  simp only [hversion, hcontent]

/-! ## Any error -/

/-- A profile is refused for what is met in its bytes. -/
theorem between_of_ofBytes {e : ParseError} (h : Profile.ofBytes bytes = .error (.malformed e)) :
    e.Between 0 bytes.length := by
  unfold Profile.ofBytes at h
  split at h
  · rename_i hmagic
    exact between_of_ofBinary hmagic h
  · split at h
    · cases hread : Text.read bytes with
      | error e' =>
        simp only [Profile.ofText, hread, bind, Except.bind, Except.mapError] at h
        cases h
        exact Text.between_of_read hread
      | ok s =>
        simp only [Profile.ofText, hread, bind, Except.bind, Except.mapError] at h
        cases h
    · cases h

/-- The steps of an error name bytes of the profile, or its end, and an outer step names none behind
that of an inner one. Names that come out of compressed bytes are refused at the first of these. -/
theorem errors_point_into_the_profile (bytes : List UInt8) :
    (∀ e, Profile.ofBytes bytes = .error (.malformed e) →
      e.steps ≠ [] ∧ (∀ step ∈ e.steps, step.2 ≤ bytes.length) ∧
        e.steps.Pairwise fun inner outer => outer.2 ≤ inner.2) ∧
    ∀ table packed plain inner, HoldsPacked bytes table packed plain →
      NameList.payloadNames (.ofBytes plain) = .error inner →
      packed.bytes <+: bytes.drop packed.start ∧
        Profile.ofBytes bytes = .error (.malformed {
          problem := .malformedCompressedList
          offset := packed.start
          parts := [(.nameTable, table.start)] }) := by
  refine ⟨fun e he => ?_, fun table packed plain inner hpacked hinner => ?_⟩
  · obtain ⟨hnested, hbounds⟩ := (between_of_ofBytes he).steps
    refine ⟨List.cons_ne_nil _ _, fun step hstep => ?_, List.pairwise_map.1 hnested⟩
    exact (hbounds step.2 (List.mem_map_of_mem hstep)).2
  · exact ⟨hpacked.isPrefix_drop, hpacked.ofBytes_eq hinner⟩

/-- Bytes of a name that is said to be longer than it is. -/
def cutName : List UInt8 := [5, 0x61, 0x62]

/-- A profile without a summary whose names are those bytes, compressed. -/
def packedCutName : List UInt8 :=
  magic ++ [3, 0, 0, 0, 0, 0, 0, 0, 0, 1, 3, 14] ++ Zlib.deflate cutName

/-- The name is cut off behind its first byte, and is refused where the compressed bytes begin. -/
theorem packedCutName_points_into_the_profile :
    NameList.payloadNames (.ofBytes cutName)
      = .error { problem := .lengthExceedsInput, offset := 1 } ∧
    ∃ e, Profile.ofBytes packedCutName = .error (.malformed e) ∧
      e.steps = [("Verify", 20), ("malformed compressed string list", 20), ("name table", 17)] ∧
      (∀ step ∈ e.steps, step.2 ≤ packedCutName.length) ∧
      e.steps.Pairwise fun inner outer => outer.2 ≤ inner.2 := by
  have hinner : NameList.payloadNames (.ofBytes cutName)
      = .error { problem := .lengthExceedsInput, offset := 1 } := by decide +kernel
  have hpacked : HoldsPacked packedCutName ⟨17, packedCutName.drop 17⟩ ⟨20, Zlib.deflate cutName⟩
      cutName := {
    front := ⟨⟨16, packedCutName.drop 16⟩, none, by decide +kernel, by decide +kernel⟩
    numbers := ⟨1, [], by decide +kernel⟩
    packed_ne := by decide +kernel
    inflated := Zlib.lossless_deflate cutName }
  obtain ⟨-, hread⟩ := (errors_point_into_the_profile packedCutName).2 _ _ _ _ hpacked hinner
  obtain ⟨-, hbounds, hnested⟩ := (errors_point_into_the_profile packedCutName).1 _ hread
  exact ⟨hinner, _, hread, rfl, hbounds, hnested⟩

end Profile

end SamplingProfile
