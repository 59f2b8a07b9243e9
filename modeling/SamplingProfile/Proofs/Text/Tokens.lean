-- What is read from the lines that are written. Names may hold whatever the grammar of a line is
-- made of, so a line is read back if its name does not pass for another part of a line.
import SamplingProfile.Proofs.Text.BodyLines
import SamplingProfile.Text.Read
import SamplingProfile.Text.Write

namespace SamplingProfile.Text

open Reader

/-! ## Parts of a line -/

theorem takeWhile_append_eq_nil {p : UInt8 → Bool} {front back : List UInt8}
    (hfront : front.takeWhile p = []) (hback : back.takeWhile p = []) :
    (front ++ back).takeWhile p = [] := by
  rw [List.takeWhile_append, hfront]
  split
  · rename_i hlength
    rw [List.eq_nil_of_length_eq_zero hlength.symm, hback]
    rfl
  · rfl

theorem isLocation_locationText (l : Location) : IsLocation (locationText l) l := by
  have hline : l.line.toNat ≤ 0xffff := by
    have := l.packed.toNat_lt
    rw [Location.toNat_line]
    omega
  have hdiscriminator : l.discriminator.toNat ≤ 0xffff := by
    rw [Location.toNat_discriminator]
    omega
  have hsize : ∀ {n : Nat}, n ≤ 0xffff → n < UInt64.size :=
    fun hn => Nat.lt_of_le_of_lt hn (by decide)
  have hl := l.ofLine_line_discriminator
  unfold locationText
  split
  · rename_i hzero
    have h := IsLocation.line (isNumber_encode (hsize hline)) hline
    rwa [UInt32.ofNat_toNat, ← hzero, hl] at h
  · have h := IsLocation.discriminator (isNumber_encode (hsize hline)) hline
      (isNumber_encode (hsize hdiscriminator)) hdiscriminator
    rwa [UInt32.ofNat_toNat, UInt32.ofNat_toNat, hl] at h

theorem isNameCount_nameCountText (name : String) (count : Count) :
    IsNameCount (nameCountText name count) name count.toNat :=
  ⟨Decimal.encode count.toNat, rfl, isNumber_encode count.toNat_lt_size⟩

theorem isBodyLine_text (l : Location) {behind : List UInt8}
    (hbehind : behind.takeWhile isBlank = []) :
    IsBodyLine (locationText l ++ 0x3a :: 0x20 :: behind) l behind :=
  ⟨⟨locationText l, [0x20], isLocation_locationText l, by decide, rfl⟩, hbehind⟩

/-- Words with a space in front of each but the first are found again. -/
theorem tokens_flatMap {words : List (List UInt8)} (h : ∀ w ∈ words, IsWord w) :
    tokens (words.flatMap (0x20 :: ·)) = words := by
  induction words with
  | nil => rfl
  | cons w words ih =>
    rw [List.forall_mem_cons] at h
    have hrest : (words.flatMap (0x20 :: ·)).takeWhile (fun b => !isBlank b) = [] := by
      cases words <;> rfl
    have hfirst := tokens_append_cons [] (w ++ words.flatMap (0x20 :: ·)) (b := 0x20) rfl
    rw [tokens_word_append h.1 hrest, ih h.2] at hfirst
    exact hfirst

/-! ## The lines of functions and callees -/

theorem readFunctionLine_text (name : String) (total entryCount : Count) (start : Nat) :
    readFunctionLine ⟨start, encodeText name ++ 0x3a :: Decimal.encode total.toNat
        ++ 0x3a :: Decimal.encode entryCount.toNat⟩
      = .ok (name, total.toNat, entryCount.toNat) := by
  refine readFunctionLine_eq_ok_iff.2 ⟨nameCountText name total, _, rfl, ?_, ?_⟩
  · exact isNameCount_nameCountText name total
  · exact isNumber_encode entryCount.toNat_lt_size

/-- Whether bytes begin with a number of 64 bits that is followed by a blank, as the count of a
location and its targets do. -/
def BeginsAsCount (bytes : List UInt8) : Prop :=
  bytes.takeWhile Decimal.isDigit ≠ [] ∧
    Decimal.decode (bytes.takeWhile Decimal.isDigit) < UInt64.size ∧
    (bytes.dropWhile Decimal.isDigit).takeWhile isBlank ≠ []

instance (bytes : List UInt8) : Decidable (BeginsAsCount bytes) :=
  inferInstanceAs (Decidable (_ ∧ _ ∧ _))

/-- What ends within the front of some bytes does not depend on the rest. -/
theorem takeWhile_dropWhile_append {p : UInt8 → Bool} {front : List UInt8}
    (h : front.dropWhile p ≠ []) (back : List UInt8) :
    (front ++ back).takeWhile p = front.takeWhile p ∧
      (front ++ back).dropWhile p = front.dropWhile p ++ back := by
  have hsplit := congrArg List.length
    (List.takeWhile_append_dropWhile (p := p) (l := front))
  have hpos := List.length_pos_iff.2 h
  rw [List.length_append] at hsplit
  rw [List.takeWhile_append, if_neg (by omega), List.dropWhile_append,
    if_neg (by simpa using h)]
  exact ⟨rfl, rfl⟩

/-- What stands behind a name with a colon does not make it begin as a count. -/
theorem BeginsAsCount.of_append {name rest : List UInt8}
    (h : BeginsAsCount (name ++ 0x3a :: rest)) : BeginsAsCount name := by
  obtain ⟨hdigits, hsize, hblank⟩ := h
  by_cases hdrop : name.dropWhile Decimal.isDigit = []
  · -- the number would end at the colon, which is no blank
    rw [List.dropWhile_append, hdrop] at hblank
    exact absurd rfl hblank
  · obtain ⟨htake, hdrop'⟩ := takeWhile_dropWhile_append hdrop (0x3a :: rest)
    rw [htake] at hdigits hsize
    rw [hdrop'] at hblank
    exact ⟨hdigits, hsize, fun hnone => hblank (takeWhile_append_eq_nil hnone rfl)⟩

/-- A count with a blank behind it is one whatever follows. -/
theorem BeginsAsCount.append {front : List UInt8} (h : BeginsAsCount front)
    (back : List UInt8) : BeginsAsCount (front ++ back) := by
  obtain ⟨hdigits, hsize, hblank⟩ := h
  have hdrop : front.dropWhile Decimal.isDigit ≠ [] := by
    intro hnil
    rw [hnil] at hblank
    exact hblank rfl
  obtain ⟨htake, hdrop'⟩ := takeWhile_dropWhile_append hdrop back
  obtain ⟨b, tail, hcons⟩ := List.exists_cons_of_ne_nil hdrop
  rw [BeginsAsCount, htake, hdrop', hcons, List.cons_append, List.takeWhile_cons]
  rw [hcons, List.takeWhile_cons] at hblank
  refine ⟨hdigits, hsize, ?_⟩
  cases hb : isBlank b with
  | true => exact List.cons_ne_nil b _
  | false =>
    rw [hb] at hblank
    exact absurd rfl hblank

/-- Bytes begin as a count exactly if a count stands in front, and something behind it. -/
theorem beginsAsCount_iff {bytes : List UInt8} :
    BeginsAsCount bytes ↔
      (leadingCount? bytes).isSome ∧ bytes.dropWhile Decimal.isDigit ≠ [] := by
  have hblank : ∀ behind : List UInt8, behind.takeWhile isBlank ≠ [] ↔
      EndsWord behind ∧ behind ≠ [] := by
    intro behind
    cases behind with
    | nil => simp
    | cons b rest => cases hb : isBlank b <;> simp [EndsWord, hb]
  unfold BeginsAsCount leadingCount?
  rw [hblank, Option.isSome_ite]
  simp only [and_assoc]

/-- A name with a colon behind it passes for a count exactly if the name does. -/
theorem leadingCount?_append_colon_iff {name rest : List UInt8} :
    leadingCount? (name ++ 0x3a :: rest) = none ↔ ¬ BeginsAsCount name := by
  rw [← Option.not_isSome_iff_eq_none, not_iff_not]
  constructor
  · intro hsome
    -- the colon behind the name is no digit, so the digits end in front of it
    have hbegins : BeginsAsCount (name ++ 0x3a :: rest) := by
      refine beginsAsCount_iff.2 ⟨hsome, fun hnil => ?_⟩
      cases List.dropWhile_eq_nil_iff.1 hnil 0x3a (by simp)
    exact hbegins.of_append
  · exact fun hbegins => (beginsAsCount_iff.1 (hbegins.append _)).1

/-- A callee and its total are read from a line if the callee does not pass for a count. -/
theorem readBodyLine_callsiteText {site : Callsite}
    (hblank : (encodeText site.callee).takeWhile isBlank = [])
    (hcount : ¬ BeginsAsCount (encodeText site.callee)) (total : Count) (start : Nat) :
    readBodyLine ⟨start, callsiteText site total⟩ = .ok (.callee site) := by
  have htext : callsiteText site total
      = locationText site.location ++ 0x3a :: 0x20 :: nameCountText site.callee total := by
    rw [callsiteText, List.append_assoc]
    rfl
  have hbehind : (nameCountText site.callee total).takeWhile isBlank = [] :=
    takeWhile_append_eq_nil hblank rfl
  have hnone : leadingCount? (nameCountText site.callee total) = none :=
    leadingCount?_append_colon_iff.2 hcount
  rw [htext, readBodyLine_eq_callee_iff]
  exact ⟨_, total.toNat, isBodyLine_text site.location hbehind, hnone,
    isNameCount_nameCountText site.callee total⟩

/-! ## The lines of locations -/

theorem isWord_nameCountText {name : String} (h : ∀ b ∈ encodeText name, isBlank b = false)
    (count : Count) : IsWord (nameCountText name count) := by
  refine ⟨by simp [nameCountText], fun b hb => ?_⟩
  rcases List.mem_append.1 hb with hname | hcount
  · exact h b hname
  · rcases List.mem_cons.1 hcount with rfl | hcount
    · rfl
    · exact isBlank_of_isDigit (Decimal.isDigit_encode _ b hcount)

/-- Functions called from a location are read with a space in front of each, if their names have no
blanks. -/
theorem areTargets_text {targets : List (String × Count)}
    (h : ∀ t ∈ targets, ∀ b ∈ encodeText t.1, isBlank b = false) :
    AreTargets (targets.flatMap fun t => 0x20 :: nameCountText t.1 t.2) targets := by
  have hwords : ∀ w ∈ targets.map fun t => nameCountText t.1 t.2, IsWord w := by
    intro w hw
    obtain ⟨t, ht, rfl⟩ := List.mem_map.1 hw
    exact isWord_nameCountText (h t ht) t.2
  have htokens := tokens_flatMap hwords
  rw [List.flatMap_map] at htokens
  rw [AreTargets, htokens, List.forall₂_map_left_iff, List.forall₂_same]
  exact fun t _ => isNameCount_nameCountText t.1 t.2

/-- A location is read from its line with its count and the functions called from it, if their
names have no blanks. -/
theorem readBodyLine_sampleText {sample : Location × Tally}
    (htargets : ∀ t ∈ sample.2.targets.entries, ∀ b ∈ encodeText t.1, isBlank b = false)
    (start : Nat) :
    readBodyLine ⟨start, sampleText sample⟩
      = .ok (.sample sample.1 sample.2.count sample.2.targets.entries) := by
  obtain ⟨location, tally⟩ := sample
  let behind := tally.targets.entries.flatMap fun t => 0x20 :: nameCountText t.1 t.2
  have htext : sampleText (location, tally)
      = locationText location ++ 0x3a :: 0x20 :: (Decimal.encode tally.count.toNat ++ behind) := by
    simp [sampleText, behind]
  have hends : EndsWord behind := by
    unfold behind
    cases tally.targets.entries with
    | nil => exact fun b hb => nomatch hb
    | cons t targets =>
      intro b hb
      cases hb
      rfl
  have hcount := isNumber_encode tally.count.toNat_lt
  rw [htext, readBodyLine_eq_sample_iff]
  exact ⟨Decimal.encode tally.count.toNat, behind,
    isBodyLine_text location (hcount.takeWhile_isBlank behind), hcount, hends,
    areTargets_text htargets⟩

end SamplingProfile.Text
