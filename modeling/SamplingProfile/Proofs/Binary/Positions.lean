-- Where the errors of a binary profile are met: at bytes of the profile, whatever the profile says.
-- Names that were compressed stand in no bytes of it, so that what is wrong with them is told of
-- the bytes that they came out of.
import SamplingProfile.Proofs.Binary.Sections
import SamplingProfile.Proofs.NameList
import SamplingProfile.Proofs.Reading.Positions

namespace SamplingProfile

open Reader

/-- Every problem there is. -/
abbrev anyProblem : Problem → Prop := fun _ => True

/-! ## Lists of names -/

namespace NameList

variable {first : Nat}

theorem located_name : name.Located anyProblem first :=
  (located_leb128 trivial trivial).bind fun n => located_text trivial trivial n

theorem located_names (room : Nat) : (names room).Located anyProblem first := by
  induction room generalizing first with
  | zero => exact located_pure []
  | succ room ih =>
    refine located_get_bind fun span => ?_
    split
    · exact located_pure []
    · exact located_name.bind fun _ => ih.bind fun _ => located_pure _

/-- What is wrong with the stored names is wrong with bytes that they are stored in, or with all of
these bytes if they are compressed. -/
theorem between_of_storedNames {size compressed : Nat} {stored : Span} {e : ParseError}
    (h : storedNames size compressed stored = .error e) : e.Between stored.start stored.stop := by
  have hstart : ∀ problem, ({ problem, offset := stored.start } : ParseError).Between stored.start
      stored.stop :=
    fun _ => ParseError.between_of_offset (Nat.le_refl _) stored.start_le_stop
  unfold storedNames at h
  split at h
  · have hnames := located_names stored.bytes.length stored (Nat.le_refl _)
    unfold payloadNames at h
    split at h
    · cases h
    · rename_i inner hinner
      rw [hinner] at hnames
      cases h
      exact hnames.2.within .stringList
  · unfold compressedNames at h
    split at h
    · cases h
      exact hstart _
    · split at h
      · cases h
        exact hstart _
      · split at h
        · cases h
        · cases h
          exact hstart _

theorem located_readStored (count size compressed : Nat) :
    (readStored count size compressed).Located anyProblem first := by
  rw [readStored_eq]
  refine located_get_bind fun span middle hstart => ?_
  generalize (if compressed = 0 then size else compressed) = length
  rcases Nat.lt_or_ge middle.bytes.length length with hlt | hge
  · rw [error_bind (ensure_of_lt hlt)]
    exact ⟨trivial, ParseError.between_of_offset hstart middle.start_le_stop⟩
  · have htake : take length middle = .ok (middle.bytes.take length, middle.drop length) := rfl
    have hlast : span.start ≤ middle.stop := Nat.le_trans hstart middle.start_le_stop
    rw [bind_of_ok (ensure_of_le hge), bind_of_ok htake]
    cases hnames : storedNames size compressed ⟨span.start, middle.bytes.take length⟩ with
    | error e =>
      refine ⟨trivial, (between_of_storedNames hnames).mono (Nat.le_refl _) ?_⟩
      simp only [Span.stop, List.length_take]
      omega
    | ok found =>
      by_cases hcount : found.length = count
      · rw [counted, if_pos hcount]
        exact ⟨Nat.le_add_right .., Span.stop_drop hge⟩
      · rw [counted, if_neg hcount]
        exact ⟨trivial, ParseError.between_of_offset (Nat.le_refl _) hlast⟩

theorem located_read : NameList.read.Located anyProblem first := by
  rw [read_eq]
  exact (located_leb128 trivial trivial).bind fun count =>
    (located_leb128 trivial trivial).bind fun size =>
      (located_leb128 trivial trivial).bind fun compressed =>
        located_readStored count size compressed

end NameList

namespace Binary

namespace Layout

variable (l : Layout) (table : NameArray) {first : Nat}

/-! ## Numbers -/

theorem located_readSmall : l.readSmall.Located anyProblem first := by
  unfold readSmall
  split
  · exact located_littleEndian trivial 4
  · exact located_littleEndian trivial 8
  · exact located_leb128 trivial trivial

theorem located_readWord : l.readWord.Located anyProblem first := by
  refine located_get_bind fun span => l.located_readSmall.bind fun n => ?_
  split
  · exact located_pure _
  · exact located_failAt trivial rfl

theorem located_readCount : l.readCount.Located anyProblem first := by
  unfold readCount
  split
  · exact (located_littleEndian trivial 8).bind fun _ => located_pure _
  · exact (located_littleEndian trivial 8).bind fun _ => located_pure _
  · exact (located_leb128 trivial trivial).bind fun _ => located_pure _

/-! ## Summary and names -/

theorem located_readCoverage : l.readCoverage.Located anyProblem first :=
  l.located_readWord.bind fun _ => l.located_readCount.bind fun _ =>
    l.located_readSmall.bind fun _ => located_pure _

theorem located_readSummaryFields : l.readSummaryFields.Located anyProblem first :=
  l.located_readCount.bind fun _ => l.located_readCount.bind fun _ =>
    l.located_readCount.bind fun _ => l.located_readSmall.bind fun _ =>
      l.located_readSmall.bind fun _ => l.located_readSmall.bind fun entries =>
        (located_ensure trivial entries).bind fun _ =>
          (located_repeated l.located_readCoverage entries).bind fun _ => located_pure _

theorem located_readSummary : l.readSummary.Located anyProblem first := by
  refine (located_littleEndian trivial 1).bind fun flag => ?_
  split
  · exact located_pure _
  · exact l.located_readSummaryFields.bind fun _ => located_pure _
  · exact located_fail trivial

theorem located_readText : l.readText.Located anyProblem first :=
  l.located_readSmall.bind fun n => located_text trivial trivial n

theorem located_readTable : l.readTable.Located anyProblem first := by
  unfold readTable
  split
  · exact located_pure _
  · exact l.located_readSmall.bind fun count => (located_ensure trivial count).bind fun _ =>
      (located_repeated l.located_readText count).bind fun _ => located_pure _
  · exact NameList.located_read.bind fun _ => located_pure _

theorem located_readName : (l.readName table).Located anyProblem first := by
  unfold readName
  split
  · exact l.located_readText
  -- an index into the table, whatever the table
  all_goals
    refine located_get_bind fun span => l.located_readSmall.bind fun index => ?_
    split
    · exact located_pure _
    · exact located_failAt trivial rfl

/-! ## Functions -/

theorem located_readTarget : (l.readTarget table).Located anyProblem first :=
  (l.located_readName table).bind fun _ => l.located_readCount.bind fun _ => located_pure _

theorem located_readSample : (l.readSample table).Located anyProblem first :=
  l.located_readWord.bind fun _ => l.located_readCount.bind fun _ =>
    l.located_readCount.bind fun _ => l.located_readSmall.bind fun targets =>
      (located_distinct trivial (fun _ => l.located_readTarget table) targets []).bind fun _ =>
        located_pure _

theorem located_readBody : (l.readBody table).Located anyProblem first :=
  (l.located_readName table).bind fun _ => (l.located_readName table).bind fun _ =>
    (l.located_readName table).bind fun _ => l.located_readWord.bind fun _ =>
      l.located_readCount.bind fun _ => l.located_readSmall.bind fun locations =>
        (located_distinct trivial (fun _ => l.located_readSample table) locations []).bind fun _ =>
          located_pure _

theorem located_readFunction (levels : Nat) :
    (l.readFunction table levels).Located anyProblem first := by
  induction levels generalizing first with
  | zero => exact located_fail trivial
  | succ levels ih =>
    have hcallee : ∀ first, Located anyProblem first (do
        let packed ← l.readWord
        let callee ← l.readFunction table levels
        return ((⟨⟨packed⟩, callee.name⟩ : Callsite), callee)) :=
      fun _ => l.located_readWord.bind fun _ => ih.bind fun _ => located_pure _
    exact (l.located_readBody table).bind fun _ => l.located_readSmall.bind fun callsites =>
      (located_distinct trivial hcallee callsites []).bind fun _ => located_pure _

theorem located_readEntry : (l.readEntry table).Located anyProblem first :=
  (located_within .function fun _ => l.located_readFunction table _).bind fun _ => located_pure _

/-! ## Profiles -/

theorem located_readSections : l.readSections.Located anyProblem first :=
  (located_within .summary fun _ => l.located_readSummary).bind fun _ =>
    (located_within .nameTable fun _ => l.located_readTable).bind fun table =>
      l.located_readSmall.bind fun count =>
        (located_distinct trivial (fun _ => l.located_readEntry table) count []).bind fun _ =>
          located_pure _

theorem located_readContent : l.readContent.Located anyProblem first := by
  rw [readContent_eq]
  refine l.located_readSections.bind fun content => located_get_bind fun span => ?_
  split
  · exact (located_fail trivial).bind fun _ => located_pure _
  · exact located_pure _

end Layout

end Binary

namespace Profile

open Binary

variable {bytes : List UInt8} {e : ParseError}

/-- A binary profile is refused for what is met in its bytes. -/
theorem between_of_ofBinary (hmagic : hasMagic bytes = true)
    (h : Profile.ofBinary bytes = .error (.malformed e)) : e.Between 0 bytes.length := by
  obtain ⟨tail, rfl⟩ : ∃ tail, bytes = magic ++ tail := ⟨_, append_of_hasMagic hmagic⟩
  have hstop : ∀ span : Span, span.stop = (⟨8, tail⟩ : Span).stop →
      span.stop ≤ (magic ++ tail).length := by
    intro span hspan
    rw [hspan, List.length_append]
    exact Nat.le_refl _
  have hnumber : LocatedAt anyProblem 0 ⟨8, tail⟩ (Reader.littleEndian 8 ⟨8, tail⟩) :=
    located_littleEndian trivial 8 ⟨8, tail⟩ (Nat.zero_le _)
  rw [Profile.ofBinary, readHeader_append] at h
  cases hn : Reader.littleEndian 8 ⟨8, tail⟩ with
  | error e' =>
    rw [hn] at h hnumber
    cases h
    exact hnumber.2.mono (Nat.le_refl _) (hstop _ rfl)
  | ok r =>
    obtain ⟨number, middle⟩ := r
    rw [hn] at hnumber
    simp only [hn] at h
    cases hv : Version.ofNumber? number with
    | none =>
      rw [hv] at h
      cases h
    | some v =>
      have hcontent : (ofBinaryContent v).Located anyProblem 0 :=
        v.layout.located_readContent.bind fun _ => located_pure _
      have hspan := hcontent middle (Nat.zero_le _)
      simp only [hv] at h
      cases hc : ofBinaryContent v middle with
      | error e' =>
        rw [hc] at h hspan
        cases h
        exact hspan.2.mono (Nat.le_refl _) (hstop _ hnumber.2)
      | ok p =>
        rw [hc] at h
        cases h

end Profile

end SamplingProfile
