-- Every part of a binary profile says itself where it ends, and so does the profile. One that
-- is cut off is refused because its bytes end, and one that goes on is refused at its end.
import SamplingProfile.Proofs.Binary.Sections
import SamplingProfile.Proofs.Reading.Delimited

namespace SamplingProfile

open Reader

/-! ## Lists of names -/

theorem NameList.delimited_read : NameList.read.Delimited := by
  refine delimited_leb128.bind fun count => delimited_leb128.bind fun size =>
    delimited_leb128.bind fun compressed => delimited_get_bind (fun span => ?_) ?_
  · dsimp only
    rw [← bind_assoc]
    -- the payload is taken as a whole, and what is made of it needs no more bytes
    refine (delimited_ensure_take _).bind fun bytes => ?_
    have hcount : ∀ found : List String, Delimited (do
        if found.length ≠ count then failAt span .listLengthMismatch
        return found : Reader (List String)) := by
      intro found
      split
      · exact (delimited_failAt _ _).bind fun _ => delimited_pure _
      · exact delimited_pure _
    split
    · split
      · exact (delimited_pure _).bind hcount
      · exact (delimited_throw _).bind hcount
    · split
      · exact (delimited_pure _).bind hcount
      · exact (delimited_throw _).bind hcount
  · intro span span' h
    unfold failAt
    rw [h]

namespace Binary.Layout

/-! ## Numbers -/

theorem delimited_readSmall (l : Layout) : l.readSmall.Delimited := by
  unfold readSmall
  split
  · exact delimited_littleEndian 4
  · exact delimited_littleEndian 8
  · exact delimited_leb128

theorem consuming_readSmall (l : Layout) : l.readSmall.Consuming := by
  unfold readSmall
  split
  · exact consuming_littleEndian (by decide)
  · exact consuming_littleEndian (by decide)
  · exact consuming_leb128

theorem delimited_readWord (l : Layout) : l.readWord.Delimited := by
  refine delimited_get_bind (fun span => (delimited_readSmall l).bind fun n => ?_) ?_
  · split
    · exact delimited_pure _
    · exact delimited_failAt _ _
  · intro span span' h
    unfold failAt
    rw [h]

theorem consuming_readWord (l : Layout) : l.readWord.Consuming := by
  intro span a rest h
  obtain ⟨span', middle, hg, h'⟩ := bind_eq_ok.1 h
  cases hg
  refine (consuming_readSmall l).bind (fun n => ?_) span a rest h'
  split
  · exact delimited_pure _
  · exact delimited_failAt _ _

theorem delimited_readCount (l : Layout) : l.readCount.Delimited := by
  unfold readCount
  split
  · exact (delimited_littleEndian 8).bind fun _ => delimited_pure _
  · exact (delimited_littleEndian 8).bind fun _ => delimited_pure _
  · exact delimited_leb128.bind fun _ => delimited_pure _

/-! ## Summary and names -/

theorem delimited_readCoverage (l : Layout) : l.readCoverage.Delimited :=
  (delimited_readWord l).bind fun _ => (delimited_readCount l).bind fun _ =>
    (delimited_readSmall l).bind fun _ => delimited_pure _

theorem consuming_readCoverage (l : Layout) : l.readCoverage.Consuming :=
  (consuming_readWord l).bind fun _ => (delimited_readCount l).bind fun _ =>
    (delimited_readSmall l).bind fun _ => delimited_pure _

theorem delimited_readSummaryFields (l : Layout) : l.readSummaryFields.Delimited := by
  refine (delimited_readCount l).bind fun total => (delimited_readCount l).bind fun largest =>
    (delimited_readCount l).bind fun entry => (delimited_readSmall l).bind fun counts =>
      (delimited_readSmall l).bind fun functions => (delimited_readSmall l).bind fun entries => ?_
  rw [← bind_assoc]
  exact (delimited_ensure_repeated (delimited_readCoverage l) (consuming_readCoverage l)
    entries).bind fun _ => delimited_pure _

theorem delimited_readSummary (l : Layout) : l.readSummary.Delimited := by
  refine (delimited_littleEndian 1).bind fun flag => ?_
  split
  · exact delimited_pure _
  · exact (delimited_readSummaryFields l).bind fun _ => delimited_pure _
  · exact delimited_fail _

theorem delimited_readText (l : Layout) : l.readText.Delimited :=
  (delimited_readSmall l).bind fun n => delimited_text n

theorem consuming_readText (l : Layout) : l.readText.Consuming :=
  (consuming_readSmall l).bind fun n => delimited_text n

theorem delimited_readTable (l : Layout) : l.readTable.Delimited := by
  unfold readTable
  split
  · exact delimited_pure _
  · refine (delimited_readSmall l).bind fun count => ?_
    rw [← bind_assoc]
    exact (delimited_ensure_repeated (delimited_readText l) (consuming_readText l) count).bind
      fun _ => delimited_pure _
  · exact NameList.delimited_read.bind fun _ => delimited_pure _

theorem delimited_readName (l : Layout) (table : NameArray) : (l.readName table).Delimited := by
  unfold readName
  split
  · exact delimited_readText l
  -- an index into the table, whatever the table
  all_goals
    refine delimited_get_bind (fun span => (delimited_readSmall l).bind fun index => ?_) ?_
    · split
      · exact delimited_pure _
      · exact delimited_failAt _ _
    · intro span span' h
      unfold failAt
      rw [h]

/-! ## Functions -/

theorem delimited_readTarget (l : Layout) (table : NameArray) : (l.readTarget table).Delimited :=
  (delimited_readName l table).bind fun _ => (delimited_readCount l).bind fun _ =>
    delimited_pure _

theorem delimited_readSample (l : Layout) (table : NameArray) : (l.readSample table).Delimited :=
  (delimited_readWord l).bind fun _ => (delimited_readCount l).bind fun _ =>
    (delimited_readCount l).bind fun _ => (delimited_readSmall l).bind fun targets =>
      (delimited_distinct (delimited_readTarget l table) _ targets []).bind fun _ =>
        delimited_pure _

theorem delimited_readBody (l : Layout) (table : NameArray) : (l.readBody table).Delimited :=
  (delimited_readName l table).bind fun _ => (delimited_readName l table).bind fun _ =>
    (delimited_readName l table).bind fun _ => (delimited_readWord l).bind fun _ =>
      (delimited_readCount l).bind fun _ => (delimited_readSmall l).bind fun locations =>
        (delimited_distinct (delimited_readSample l table) _ locations []).bind fun _ =>
          delimited_pure _

theorem delimited_readFunction (l : Layout) (table : NameArray) (levels : Nat) :
    (l.readFunction table levels).Delimited := by
  induction levels with
  | zero => exact delimited_fail _
  | succ levels ih =>
    have hcallee : Delimited (do
        let packed ← l.readWord
        let callee ← l.readFunction table levels
        return ((⟨⟨packed⟩, callee.name⟩ : Callsite), callee)) :=
      (delimited_readWord l).bind fun _ => ih.bind fun _ => delimited_pure _
    exact (delimited_readBody l table).bind fun _ => (delimited_readSmall l).bind fun callsites =>
      (delimited_distinct hcallee _ callsites []).bind fun _ => delimited_pure _

theorem delimited_readEntry (l : Layout) (table : NameArray) : (l.readEntry table).Delimited :=
  (delimited_within .function (delimited_readFunction l table _)).bind fun _ => delimited_pure _

theorem delimited_readSections (l : Layout) : l.readSections.Delimited :=
  (delimited_within .summary (delimited_readSummary l)).bind fun _ =>
    (delimited_within .nameTable (delimited_readTable l)).bind fun table =>
      (delimited_readSmall l).bind fun count =>
        (delimited_distinct (delimited_readEntry l table) _ count []).bind fun _ =>
          delimited_pure _

end Binary.Layout

/-! ## Profiles -/

namespace Profile

open Binary

theorem delimited_readVersioned : readVersioned.Delimited := by
  refine (delimited_littleEndian 8).bind fun number => ?_
  split
  · exact (Layout.delimited_readSections _).bind fun _ => delimited_pure _
  · exact delimited_fail _

/-- Fewer than the eight magic bytes are no profile of any form. -/
theorem ofBytes_of_lt_magic {front : List UInt8} (h : front <+: magic) (hlt : front.length < 8) :
    Profile.ofBytes front = .error .unrecognizedFormat := by
  have htake : front = magic.take front.length := List.prefix_iff_eq_take.1 h
  generalize front.length = n at hlt htake
  subst htake
  have hall : ∀ n < 8, hasMagic (magic.take n) = false ∧ isText (magic.take n) = false := by
    decide +kernel
  obtain ⟨hmagic, htext⟩ := hall n hlt
  rw [Profile.ofBytes, hmagic, htext]
  rfl

/-- A reason to stop that is the end of the bytes is told as such. -/
theorem steps_of_cutOff {e : ParseError} (h : e.IsCutOff) :
    ∃ offset outer, e.steps = ("Eof", offset) :: outer := by
  unfold ParseError.IsCutOff at h
  exact ⟨e.offset, _, by rw [ParseError.steps, h]; rfl⟩

theorem ofBytes_of_cutOff {tail : List UInt8} {e : ParseError}
    (h : readVersioned ⟨8, tail⟩ = .error e) (hcut : e.IsCutOff) :
    Profile.ofBytes (magic ++ tail) = .error (.malformed e) := by
  obtain ⟨refusal, hr, hmal⟩ := ofBytes_of_versioned_error h
  have hv : e.problem ≠ .unsupportedVersion := by
    intro hp
    unfold ParseError.IsCutOff at hcut
    rw [hp] at hcut
    exact absurd hcut (by decide)
  rw [hr, hmal hv]

/-- A profile in binary form ends where it says: what is cut off from it is refused, for the
missing bytes, and what goes on is refused at the byte where the profile ended. -/
theorem binary_profile_is_delimited {bytes : List UInt8} {p : Profile} {v : Version}
    (h : Profile.ofBytes bytes = .ok p) (hp : p.format = .binary v) :
    (∀ front, front <+: bytes → front ≠ bytes →
      (front.length < 8 → Profile.ofBytes front = .error .unrecognizedFormat) ∧
      (8 ≤ front.length → ∃ e offset outer, Profile.ofBytes front = .error (.malformed e) ∧
        e.steps = ("Eof", offset) :: outer)) ∧
    ∀ back, back ≠ [] → ∃ e, Profile.ofBytes (bytes ++ back) = .error (.malformed e) ∧
      e.steps = [("Eof", bytes.length), ("trailing data after profile", bytes.length)] := by
  obtain ⟨tail, rest, rfl, hread, hrest⟩ := versioned_of_ofBytes h hp
  obtain ⟨used, hu, htake, hout⟩ := delimited_readVersioned _ _ _ hread
  rw [hrest, List.append_nil] at hu
  simp only at hu htake hout
  subst hu
  have hmagic : magic.length = 8 := rfl
  refine ⟨fun front hpre hne => ⟨fun hlt => ?_, fun hge => ?_⟩, fun back hback => ?_⟩
  · have hfront : front <+: magic :=
      List.prefix_of_prefix_length_le hpre (List.prefix_append magic tail) (by omega)
    exact ofBytes_of_lt_magic hfront hlt
  · obtain ⟨inner, rfl⟩ : magic <+: front :=
      List.prefix_of_prefix_length_le (List.prefix_append magic tail) hpre (by omega)
    obtain ⟨missing, hsplit⟩ := hpre
    rw [List.append_assoc, List.append_cancel_left_eq] at hsplit
    have hm : missing ≠ [] := by
      rintro rfl
      rw [List.append_nil] at hsplit
      exact hne (by rw [hsplit])
    obtain ⟨e, he, hcut⟩ := hout inner missing hsplit.symm hm
    obtain ⟨offset, outer, hsteps⟩ := steps_of_cutOff hcut
    exact ⟨e, offset, outer, ofBytes_of_cutOff he hcut, hsteps⟩
  · have hend := ofBytes_of_versioned (htake back)
    rw [if_neg hback] at hend
    refine ⟨_, by rw [List.append_assoc]; exact hend, ?_⟩
    rw [List.length_append, hmagic]
    rfl

/-- One function with one sample, in the newest version. -/
def oneSample : List UInt8 :=
  magic ++ [3, 0, 0, 0, 0, 0, 0, 0, 0, 2, 3, 0, 0, 1, 0x66, 1, 1, 0, 0, 0, 7, 1, 9, 5, 1, 0, 0]

/-- Seven bytes of a profile, thirty bytes of it, and all of it with a byte behind. -/
theorem binary_profile_is_delimited_at_one_sample :
    ∃ p, Profile.ofBytes oneSample = .ok p ∧ p.format = .binary .compact ∧
      Profile.ofBytes (oneSample.take 7) = .error .unrecognizedFormat ∧
      (∃ e offset outer, Profile.ofBytes (oneSample.take 30) = .error (.malformed e) ∧
        e.steps = ("Eof", offset) :: outer) ∧
      ∃ e, Profile.ofBytes (oneSample ++ [0]) = .error (.malformed e) ∧
        e.steps = [("Eof", 35), ("trailing data after profile", 35)] := by
  have hread : Profile.ofBytes oneSample = .ok {
      format := .binary .compact
      store := .ofList [{
        name := "f", entryCount := 7
        samples := .ofList [(⟨9⟩, { count := 5, instructions := 1 })] }]
      summary? := none } := by
    rfl
  obtain ⟨hcut, hmore⟩ := binary_profile_is_delimited hread rfl
  refine ⟨_, hread, rfl, ?_, ?_, hmore [0] (by decide)⟩
  · exact (hcut _ (List.take_prefix 7 oneSample) (by decide)).1 (by decide)
  · exact (hcut _ (List.take_prefix 30 oneSample) (by decide)).2 (by decide)

end Profile

end SamplingProfile
