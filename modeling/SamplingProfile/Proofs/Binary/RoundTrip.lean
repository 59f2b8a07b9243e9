-- What becomes of a store that is written and read. Every version gives the store back, with the
-- summary that was asked for, if all callees are kept under their own names. The name that a
-- callee is kept under is not written: where two callees of one name are called from one
-- location the profile is written, and no reader takes it.
import SamplingProfile.Proofs.Binary.Written

namespace SamplingProfile

open Binary Reader

/-! ## Behind the version number -/

namespace Profile

section Versioned

variable {v : Version} {s : Store} {compress : Bool} {summary? : Option Summary}
  {deflate : List UInt8 → List UInt8} (hd : Zlib.Lossless deflate)
  (hfit : compress = true →
    (NameList.payload (NameTable.ofStore v.layout s).names).length < UInt64.size)
  (hsummary : Layout.SummaryOf s summary?) (hdeep : s.tooDeep? = none)
include hd hfit hsummary hdeep

theorem undoes_readVersioned (hs : s.CalleesApart) :
    readVersioned.Undoes (⟨LittleEndian.encode 8 v.number, none⟩
        ++ v.layout.writeSections compress s summary? deflate)
      { format := .binary v, store := s.underOwnNames, summary? } := by
  have hnumber : v.number < LittleEndian.values 8 := by cases v <;> decide
  have hsections := Layout.undoes_readSections v.layout hd hfit hsummary hdeep hs
  apply (undoes_littleEndian hnumber).bind
  rw [Version.ofNumber?_eq_some_iff.2 rfl]
  exact hsections.bind_pure rfl

theorem refuses_readVersioned (hs : ¬s.CalleesApart) :
    readVersioned.Refuses (⟨LittleEndian.encode 8 v.number, none⟩
        ++ v.layout.writeSections compress s summary? deflate) .duplicateCallsite := by
  have hnumber : v.number < LittleEndian.values 8 := by cases v <;> decide
  have hsections := Layout.refuses_readSections v.layout hd hfit hsummary hdeep hs
  apply Refuses.bind_right (undoes_littleEndian hnumber)
  rw [Version.ofNumber?_eq_some_iff.2 rfl]
  exact hsections.bind_last _

end Versioned

/-! ## Whole profiles -/

theorem ofBytes_of_undoes {o : Output} {p : Profile} (h : readVersioned.Undoes o p)
    {tail : List UInt8} (ho : o = ⟨tail, none⟩) (hlt : tail.length < UInt64.size) :
    Profile.ofBytes (magic ++ tail) = .ok p := by
  have hread := h tail ho hlt 8 []
  rw [List.append_nil] at hread
  rw [ofBytes_of_versioned hread, if_pos rfl]

theorem ofBytes_of_refuses {o : Output} {p : Problem} (h : readVersioned.Refuses o p)
    (hp : p ≠ .unsupportedVersion) {tail : List UInt8} (ho : o = ⟨tail, none⟩)
    (hlt : tail.length < UInt64.size) :
    ∃ e, Profile.ofBytes (magic ++ tail) = .error (.malformed e) ∧ e.problem = p := by
  obtain ⟨e, hread, he⟩ := h tail ho hlt 8 []
  rw [List.append_nil] at hread
  obtain ⟨refusal, hr, hmal⟩ := ofBytes_of_versioned_error hread
  have hrefusal : refusal = .malformed e := by
    apply hmal
    rw [he]
    exact hp
  exact ⟨e, by rw [hr, hrefusal], he⟩

end Profile

namespace Binary.Writer

/-- The summary that is written with a store: that of the default cutoffs, or none. -/
def Summarizes (w : Writer) (s : Store) (summary? : Option Summary) : Prop :=
  if w.includeSummary then ∃ x, s.summary defaultCutoffs = .ok x ∧ summary? = some x
  else summary? = none

/-- What was written is the magic bytes, the version number and the sections of a store that is
not too deep. -/
theorem write_eq_ok {w : Writer} {s : Store} {deflate : List UInt8 → List UInt8}
    {bytes : List UInt8} (h : (w.write s deflate).toExcept = .ok bytes) :
    ∃ summary? tail, w.Summarizes s summary? ∧ s.tooDeep? = none ∧ bytes = magic ++ tail ∧
      ⟨LittleEndian.encode 8 w.version.number, none⟩
        ++ w.version.layout.writeSections w.compressNames s summary? deflate
        = ⟨tail, none⟩ := by
  have hw := Output.toExcept_eq_ok h
  have hversion : w.version.layout.version = w.version := by cases w.version <;> rfl
  have hsplit : ∀ summary?, w.version.layout.writeProfile w.compressNames s summary? deflate
      = ⟨bytes, none⟩ → ∃ tail, bytes = magic ++ tail ∧
        ⟨LittleEndian.encode 8 w.version.number, none⟩
          ++ w.version.layout.writeSections w.compressNames s summary? deflate
          = ⟨tail, none⟩ := by
    intro summary? hp
    rw [Layout.writeProfile_eq, hversion] at hp
    obtain ⟨front, tail, hfront, htail, rfl⟩ := Output.append_eq_bytes hp
    cases hfront
    exact ⟨tail, rfl, htail⟩
  unfold write at hw
  cases hdeep : s.tooDeep? with
  | some f =>
    rw [hdeep] at hw
    cases hw
  | none =>
    rw [hdeep] at hw
    dsimp only at hw
    by_cases hi : w.includeSummary = true
    · rw [if_pos hi] at hw
      cases hx : s.summary defaultCutoffs with
      | error e =>
        rw [hx] at hw
        cases hw
      | ok x =>
        rw [hx] at hw
        obtain ⟨tail, hb, ht⟩ := hsplit _ hw
        refine ⟨some x, tail, ?_, rfl, hb, ht⟩
        unfold Summarizes
        rw [if_pos hi]
        exact ⟨x, hx, rfl⟩
    · rw [if_neg hi] at hw
      obtain ⟨tail, hb, ht⟩ := hsplit _ hw
      refine ⟨none, tail, ?_, rfl, hb, ht⟩
      unfold Summarizes
      rw [if_neg hi]

theorem Summarizes.summaryOf {w : Writer} {s : Store} {summary? : Option Summary}
    (h : w.Summarizes s summary?) : Layout.SummaryOf s summary? := by
  unfold Summarizes at h
  by_cases hi : w.includeSummary = true
  · rw [if_pos hi] at h
    obtain ⟨x, hx, rfl⟩ := h
    exact ⟨defaultCutoffs, hx⟩
  · rw [if_neg hi] at h
    subst h
    trivial

end Binary.Writer

namespace Profile

section Written

variable {deflate : List UInt8 → List UInt8} (hd : Zlib.Lossless deflate) {w : Writer} {s : Store}
  {bytes : List UInt8} (hw : (w.write s deflate).toExcept = .ok bytes)
  (hlength : bytes.length < UInt64.size)
  (hfit : w.compressNames = true →
    (NameList.payload (NameTable.ofStore w.version.layout s).names).length < UInt64.size)
include hd hw hlength hfit

theorem ofBytes_written (hs : s.CalleesApart) :
    ∃ summary?, w.Summarizes s summary? ∧ Profile.ofBytes bytes = .ok {
      format := .binary w.version, store := s.underOwnNames, summary? } := by
  obtain ⟨summary?, tail, hsum, hdeep, rfl, htail⟩ := Writer.write_eq_ok hw
  rw [List.length_append] at hlength
  have hread := undoes_readVersioned hd hfit hsum.summaryOf hdeep hs
  exact ⟨summary?, hsum, ofBytes_of_undoes hread htail (by omega)⟩

theorem ofBytes_written_refused (hs : ¬s.CalleesApart) :
    ∃ e, Profile.ofBytes bytes = .error (.malformed e) ∧ e.problem = .duplicateCallsite := by
  obtain ⟨summary?, tail, hsum, hdeep, rfl, htail⟩ := Writer.write_eq_ok hw
  rw [List.length_append] at hlength
  have hread := refuses_readVersioned hd hfit hsum.summaryOf hdeep hs
  exact ofBytes_of_refuses hread (by decide) htail (by omega)

end Written

/-! ## What comes back -/

/-- A store whose callees are kept under their own names comes back from every version, with its
names compressed or not, and with the summary exactly if it was asked for. -/
theorem store_comes_back {deflate : List UInt8 → List UInt8} (hd : Zlib.Lossless deflate)
    {w : Writer} {s : Store} {bytes : List UInt8} (hw : (w.write s deflate).toExcept = .ok bytes)
    (hlength : bytes.length < UInt64.size)
    (hfit : w.compressNames = true →
      (NameList.payload (NameTable.ofStore w.version.layout s).names).length < UInt64.size)
    (hs : s.CalleesNamed) :
    ∃ summary?, Profile.ofBytes bytes = .ok { format := .binary w.version, store := s, summary? } ∧
      (w.includeSummary = true →
        ∃ x, s.summary defaultCutoffs = .ok x ∧ summary? = some x) ∧
      (w.includeSummary = false → summary? = none) := by
  obtain ⟨summary?, hsum, hread⟩ := ofBytes_written hd hw hlength hfit hs.apart
  rw [hs.underOwnNames_eq] at hread
  refine ⟨summary?, hread, ?_, ?_⟩
  · intro hi
    rwa [Writer.Summarizes, if_pos hi] at hsum
  · intro hi
    rwa [Writer.Summarizes, hi, if_neg Bool.false_ne_true] at hsum

/-- A function with a callee, which calls it in turn. -/
def nested : Store := .ofList [{
  name := "main", directory := "src", file := "a.c", startLine := 1, entryCount := 3
  callees := .ofList [(⟨⟨2⟩, "g"⟩, {
    name := "g"
    samples := .ofList [(⟨5⟩, { count := 9, instructions := 1, targets := .ofList [("g", 4)] })]
    callees := .ofList [(⟨⟨3⟩, "main"⟩, { name := "main", entryCount := 6 })] })] }]

/-- The names of `nested`, each behind its length. -/
def nestedNames : List UInt8 :=
  [0, 3, 0x61, 0x2e, 0x63, 1, 0x67, 4, 0x6d, 0x61, 0x69, 0x6e, 3, 0x73, 0x72, 0x63]

/-- The names of `nested` in one block of the fixed codes; all else in stored blocks. -/
def deflateNested (plain : List UInt8) : List UInt8 :=
  if plain = nestedNames then
    [0x78, 0x9c, 0x63, 0x60, 0x4e, 0xd4, 0x4b, 0x66, 0x4c, 0x67, 0xc9, 0x4d, 0xcc, 0xcc, 0x63,
      0x2e, 0x2e, 0x4a, 0x06, 0x00, 0x1e, 0x11, 0x04, 0x52]
  else Zlib.deflate plain

theorem lossless_deflateNested : Zlib.Lossless deflateNested := by
  intro plain
  unfold deflateNested
  by_cases h : plain = nestedNames
  · rw [if_pos h, h]
    decide +kernel
  · rw [if_neg h]
    exact Zlib.lossless_deflate plain

/-- `nested` in the newest version, with compressed names and its summary. -/
theorem nested_comes_back :
    ∃ bytes x, (({ compressNames := true } : Writer).write nested deflateNested).toExcept
        = .ok bytes ∧ nested.summary defaultCutoffs = .ok x ∧
      Profile.ofBytes bytes
        = .ok { format := .binary .compact, store := nested, summary? := some x } := by
  have hw : (({ compressNames := true } : Writer).write nested deflateNested).toExcept
      = .ok (({ compressNames := true } : Writer).write nested deflateNested).bytes :=
    Output.toExcept_of_error? (by decide +kernel)
  have hlength : (({ compressNames := true } : Writer).write nested deflateNested).bytes.length
      = 159 := by decide +kernel
  have hnames : NameList.payload (NameTable.ofStore (Version.layout .compact) nested).names
      = nestedNames := by decide +kernel
  have hfit : (NameList.payload
      (NameTable.ofStore (Version.layout .compact) nested).names).length < UInt64.size := by
    rw [hnames]
    decide
  obtain ⟨summary?, hread, hsummary, -⟩ := store_comes_back lossless_deflateNested hw
    (by rw [hlength]; decide) (fun _ => hfit) (by decide +kernel)
  obtain ⟨x, hx, rfl⟩ := hsummary rfl
  exact ⟨_, x, hw, hx, hread⟩

/-- A profile that was written is read exactly if no two callees of one name are called from one
location. Then it has the summary of the store, and every callee under its own name. If not, it
is refused for a callsite that comes twice. -/
theorem written_profile_is_read_iff {deflate : List UInt8 → List UInt8}
    (hd : Zlib.Lossless deflate) {w : Writer} {s : Store} {bytes : List UInt8}
    (hw : (w.write s deflate).toExcept = .ok bytes) (hlength : bytes.length < UInt64.size)
    (hfit : w.compressNames = true →
      (NameList.payload (NameTable.ofStore w.version.layout s).names).length < UInt64.size)
    (hi : w.includeSummary = true) :
    ((∃ p, Profile.ofBytes bytes = .ok p) ↔ s.CalleesApart) ∧
      (∀ p, Profile.ofBytes bytes = .ok p → p.format = .binary w.version ∧
        p.store = s.underOwnNames ∧
        ∃ x, s.summary defaultCutoffs = .ok x ∧ p.summary? = some x) ∧
      (¬s.CalleesApart → ∃ e, Profile.ofBytes bytes = .error (.malformed e) ∧
        e.problem = .duplicateCallsite) := by
  have hrefused := ofBytes_written_refused hd hw hlength hfit
  by_cases hs : s.CalleesApart
  · obtain ⟨summary?, hsum, hread⟩ := ofBytes_written hd hw hlength hfit hs
    rw [Writer.Summarizes, if_pos hi] at hsum
    refine ⟨⟨fun _ => hs, fun _ => ⟨_, hread⟩⟩, ?_, fun h => absurd hs h⟩
    intro p hp
    rw [hread] at hp
    cases hp
    exact ⟨rfl, rfl, hsum⟩
  · obtain ⟨e, he, hproblem⟩ := hrefused hs
    refine ⟨⟨?_, fun h => absurd h hs⟩, ?_, fun _ => ⟨e, he, hproblem⟩⟩
    · rintro ⟨p, hp⟩
      rw [he] at hp
      cases hp
    · intro p hp
      rw [he] at hp
      cases hp

/-- One callee under a name that is not its own. -/
def aliased : Store := .ofList [{
  name := "top", entryCount := 1
  callees := .ofList [(⟨⟨5⟩, "alias"⟩, { name := "real", entryCount := 2 })] }]

/-- The callee of `aliased` comes back, under its own name. -/
theorem aliased_is_read :
    ∃ bytes p x, (({ version := .wide } : Writer).write aliased).toExcept = .ok bytes ∧
      Profile.ofBytes bytes = .ok p ∧ p.store = aliased.underOwnNames ∧
      aliased.summary defaultCutoffs = .ok x ∧ p.summary? = some x := by
  have hw : (({ version := .wide } : Writer).write aliased).toExcept
      = .ok (({ version := .wide } : Writer).write aliased).bytes :=
    Output.toExcept_of_error? (by decide +kernel)
  have hlength : (({ version := .wide } : Writer).write aliased).bytes.length = 616 := by
    decide +kernel
  obtain ⟨hiff, hread, -⟩ := written_profile_is_read_iff Zlib.lossless_deflate hw
    (by rw [hlength]; decide) (by decide) rfl
  obtain ⟨p, hp⟩ := hiff.2 (by decide +kernel)
  obtain ⟨-, hstore, x, hx, hsummary⟩ := hread p hp
  exact ⟨_, p, x, hw, hp, hstore, hx, hsummary⟩

/-- Two callees of one name, called from one location and kept under other names. -/
def twins : Store := .ofList [{
  name := "top", entryCount := 1
  callees := .ofList [
    (⟨⟨5⟩, "alias"⟩, { name := "real", entryCount := 2 }),
    (⟨⟨5⟩, "other"⟩, { name := "real", entryCount := 3 })] }]

/-- The writer takes `twins`, and no reader takes what it wrote. -/
theorem twins_are_refused :
    ∃ bytes, (({ version := .compact } : Writer).write twins).toExcept = .ok bytes ∧
      ∃ e, Profile.ofBytes bytes = .error (.malformed e) ∧ e.problem = .duplicateCallsite := by
  have hw : (({ version := .compact } : Writer).write twins).toExcept
      = .ok (({ version := .compact } : Writer).write twins).bytes :=
    Output.toExcept_of_error? (by decide +kernel)
  have hlength : (({ version := .compact } : Writer).write twins).bytes.length = 139 := by
    decide +kernel
  refine ⟨_, hw, ?_⟩
  exact ofBytes_written_refused Zlib.lossless_deflate hw (by rw [hlength]; decide) (by decide)
    (by decide +kernel)

end Profile

end SamplingProfile
