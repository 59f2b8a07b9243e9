-- What a line of a body says, told by its bytes. Behind the location and blanks a number that is a
-- word of its own is a count, and each word behind it is something called from there. All else is a
-- callee with its total, and that is so too for digits that stand for too large a number.
import SamplingProfile.Proofs.Text.LineParts

namespace SamplingProfile.Text

open Reader

/-! ## Counts -/

/-- A word ends in front of these bytes: nothing stands there, or a blank. -/
def EndsWord (behind : List UInt8) : Prop := ∀ b ∈ behind.head?, isBlank b = true

instance (behind : List UInt8) : Decidable (EndsWord behind) :=
  inferInstanceAs (Decidable (∀ b ∈ behind.head?, isBlank b = true))

theorem EndsWord.takeWhile_isDigit {behind : List UInt8} (h : EndsWord behind) :
    behind.takeWhile Decimal.isDigit = [] := by
  cases behind with
  | nil => rfl
  | cons b rest =>
    cases hb : Decimal.isDigit b with
    | false => rw [List.takeWhile_cons, hb]; rfl
    | true =>
      have hblank := h b rfl
      rw [isBlank_of_isDigit hb] at hblank
      cases hblank

/-- The number that stands in front as a word of its own, if it fits in 64 bits. -/
def leadingCount? (bytes : List UInt8) : Option Nat :=
  let digits := bytes.takeWhile Decimal.isDigit
  if digits ≠ [] ∧ Decimal.decode digits < UInt64.size
      ∧ EndsWord (bytes.dropWhile Decimal.isDigit) then
    some (Decimal.decode digits)
  else none

section Leading

variable {digits behind : List UInt8} {n : Nat}

/-- Digits with nothing or a blank behind them are a count unless they stand for too much. -/
theorem leadingCount?_append (hne : digits ≠ [])
    (hdigits : ∀ b ∈ digits, Decimal.isDigit b = true) (hbehind : EndsWord behind) :
    leadingCount? (digits ++ behind)
      = if Decimal.decode digits < UInt64.size then some (Decimal.decode digits) else none := by
  have hback := hbehind.takeWhile_isDigit
  unfold leadingCount?
  rw [takeWhile_append_eq_left hdigits hback, dropWhile_append_eq_right hdigits hback]
  simp [hne, hbehind]

theorem leadingCount?_of_isNumber (h : IsNumber digits n) (hbehind : EndsWord behind) :
    leadingCount? (digits ++ behind) = some n := by
  rw [leadingCount?_append h.ne_nil h.all_digits hbehind, h.value, if_pos h.fits]

theorem leadingCount?_eq_some_iff {bytes : List UInt8} :
    leadingCount? bytes = some n ↔
      ∃ digits behind, bytes = digits ++ behind ∧ IsNumber digits n ∧ EndsWord behind := by
  constructor
  · intro h
    unfold leadingCount? at h
    dsimp only at h
    split at h
    · rename_i hcount
      cases h
      refine ⟨_, _, List.takeWhile_append_dropWhile.symm, ⟨hcount.1, ?_, rfl, hcount.2.1⟩,
        hcount.2.2⟩
      exact List.all_eq_true.1 List.all_takeWhile
    · cases h
  · rintro ⟨digits, behind, rfl, hdigits, hbehind⟩
    exact leadingCount?_of_isNumber hdigits hbehind

end Leading

/-! ## Behind the location -/

/-- Words that are names, each with its count. -/
def AreTargets (text : List UInt8) (targets : List (String × Count)) : Prop :=
  List.Forall₂ (fun word t => IsNameCount word t.1 t.2.toNat) (tokens text) targets

theorem AreTargets.token_of_mem {text : List UInt8} {targets : List (String × Count)}
    (h : AreTargets text targets) {t : String × Count} (ht : t ∈ targets) :
    ∃ word ∈ tokens text, IsNameCount word t.1 t.2.toNat := by
  unfold AreTargets at h
  generalize tokens text = words at h ⊢
  induction h with
  | nil => cases ht
  | cons hfirst _ ih =>
    rcases List.mem_cons.1 ht with rfl | ht
    · exact ⟨_, List.mem_cons_self, hfirst⟩
    · obtain ⟨word, hword, hname⟩ := ih ht
      exact ⟨word, List.mem_cons_of_mem _ hword, hname⟩

/-- Reads what stands behind the location of a line. -/
def readBehind (location : Location) (rest : Span) : Except ParseError BodyLine := do
  match readNumber rest with
  | .ok (count, _) => return .sample location (UInt64.ofNat count) []
  | .error _ =>
    match (readDecimal <* readBlanks) rest with
    | .ok (count, targets) =>
      return .sample location (UInt64.ofNat count) (← readTargets targets)
    | .error _ =>
      let (name, _) ← readNameCount rest
      return .callee ⟨location, name⟩

theorem readBodyLine_eq_bind (span : Span) :
    readBodyLine span
      = (readLocation <* readBlanks) span >>= fun front => readBehind front.1 front.2 := rfl

section Behind

variable {location : Location} {said : BodyLine}

/-- Behind a count every word is read as something that was called. -/
theorem readBehind_of_isNumber {digits behind : List UInt8} {n : Nat} (h : IsNumber digits n)
    (hbehind : EndsWord behind) (start : Nat) :
    readBehind location ⟨start, digits ++ behind⟩ = .ok said ↔
      ∃ targets, AreTargets behind targets ∧ said = .sample location (UInt64.ofNat n) targets := by
  cases behind with
  | nil =>
    have hnone : ∀ targets, AreTargets [] targets ↔ targets = [] :=
      fun targets => List.forall₂_nil_left_iff
    rw [List.append_nil, readBehind, readNumber_of_isNumber h]
    simp [hnone, pure, Except.pure, eq_comm]
  | cons b rest =>
    have hb : isBlank b = true := hbehind b rfl
    have hblanks : IsBlanks ((b :: rest).takeWhile isBlank) :=
      ⟨by simp [hb], List.all_eq_true.1 List.all_takeWhile⟩
    have hsplit := List.takeWhile_append_dropWhile (p := isBlank) (l := b :: rest)
    have hdecimal := readDecimal_append h hbehind.takeWhile_isDigit start
    have hcount := readBlanks_append hblanks (takeWhile_dropWhile isBlank (b :: rest))
      (start + digits.length)
    rw [hsplit] at hcount
    have htargets : ∀ targets, readTargets
        ⟨start + digits.length + ((b :: rest).takeWhile isBlank).length,
          (b :: rest).dropWhile isBlank⟩ = .ok targets ↔ AreTargets (b :: rest) targets := by
      intro targets
      rw [readTargets_eq_ok_iff, AreTargets, ← hsplit, tokens_blank_append hblanks.2, hsplit]
    -- the blank is no digit, so the digits do not reach to the end
    cases hnumber : readNumber ⟨start, digits ++ b :: rest⟩ with
    | ok result =>
      have hdigit := (isNumber_of_readNumber hnumber).all_digits b (by simp)
      rw [isBlank_of_isDigit hdigit] at hb
      cases hb
    | error e =>
      rw [readBehind, hnumber, seqLeft_of_ok hdecimal hcount]
      dsimp only
      rw [except_bind_eq_ok]
      simp only [htargets]
      constructor
      · rintro ⟨targets, hread, hsame⟩
        cases hsame
        exact ⟨targets, hread, rfl⟩
      · rintro ⟨targets, hread, rfl⟩
        exact ⟨targets, hread, rfl⟩

/-- What does not begin with a count is read as a callee. -/
theorem readBehind_of_none {behind : List UInt8} (h : leadingCount? behind = none) (start : Nat) :
    readBehind location ⟨start, behind⟩ = .ok said ↔
      ∃ name total, IsNameCount behind name total ∧ said = .callee ⟨location, name⟩ := by
  unfold readBehind
  cases hnumber : readNumber ⟨start, behind⟩ with
  | ok result =>
    have hends : EndsWord [] := fun b hb => nomatch hb
    have hcount := leadingCount?_of_isNumber (isNumber_of_readNumber hnumber) hends
    rw [List.append_nil, h] at hcount
    cases hcount
  | error e =>
    dsimp only
    cases hcount : (readDecimal <* readBlanks) ⟨start, behind⟩ with
    | ok result =>
      obtain ⟨_, middle, hdecimal, hblanks⟩ := seqLeft_eq_ok hcount
      obtain ⟨digits, hdigits, hbytes, -⟩ := readDecimal_eq_ok hdecimal
      obtain ⟨blanks, hall, hmiddle, -⟩ := readBlanks_eq_ok hblanks
      have hends : EndsWord middle.bytes := by
        obtain ⟨b, tail, hcons⟩ := List.exists_cons_of_ne_nil hall.1
        rw [hmiddle, hcons]
        rintro x hx
        cases hx
        exact hall.2 b (by simp [hcons])
      obtain rfl : behind = digits ++ middle.bytes := hbytes
      rw [leadingCount?_of_isNumber hdigits hends] at h
      cases h
    | error e =>
      dsimp only
      rw [except_bind_eq_ok]
      constructor
      · rintro ⟨⟨name, total⟩, hname, hsame⟩
        cases hsame
        exact ⟨name, total, readNameCount_eq_ok_iff.1 hname, rfl⟩
      · rintro ⟨name, total, hname, rfl⟩
        exact ⟨(name, total), readNameCount_eq_ok_iff.2 hname, rfl⟩

end Behind

/-! ## Whole lines -/

/-- A line of a body: a location, a colon, blanks, and what stands behind them. -/
structure IsBodyLine (bytes : List UInt8) (location : Location) (behind : List UInt8) : Prop where
  front : ∃ text blanks, IsLocation text location ∧ IsBlanks blanks ∧
    bytes = text ++ 0x3a :: (blanks ++ behind)
  unblank : behind.takeWhile isBlank = []

section Line

variable {span : Span} {location : Location} {behind : List UInt8}

theorem IsBodyLine.suffix {bytes : List UInt8} (h : IsBodyLine bytes location behind) :
    behind <:+ bytes := by
  obtain ⟨text, blanks, -, -, rfl⟩ := h.front
  exact ⟨text ++ 0x3a :: blanks, by simp⟩

theorem IsBodyLine.takeWhile_isBlank {bytes : List UInt8} (h : IsBodyLine bytes location behind) :
    bytes.takeWhile isBlank = [] := by
  obtain ⟨text, blanks, hlocation, -, rfl⟩ := h.front
  exact hlocation.takeWhile_isBlank _

theorem readBodyLine_of_isBodyLine (h : IsBodyLine span.bytes location behind) :
    ∃ next, readBodyLine span = readBehind location ⟨next, behind⟩ := by
  obtain ⟨start, bytes⟩ := span
  obtain ⟨text, blanks, hlocation, hblanks, rfl⟩ := h.front
  obtain ⟨next, hread⟩ := readLocation_append hlocation (blanks ++ behind) start
  refine ⟨next + blanks.length, ?_⟩
  rw [readBodyLine_eq_bind, seqLeft_of_ok hread (readBlanks_append hblanks h.unblank next)]
  rfl

theorem isBodyLine_of_readBodyLine {said : BodyLine} (h : readBodyLine span = .ok said) :
    ∃ location rest, IsBodyLine span.bytes location rest.bytes ∧
      readBehind location rest = .ok said := by
  rw [readBodyLine_eq_bind] at h
  obtain ⟨⟨location, rest⟩, hfront, hbehind⟩ := except_bind_eq_ok.1 h
  obtain ⟨_, middle, hlocation, hblanks⟩ := seqLeft_eq_ok hfront
  obtain ⟨text, htext, hbytes⟩ := readLocation_eq_ok hlocation
  obtain ⟨blanks, hall, hmiddle, hrest⟩ := readBlanks_eq_ok hblanks
  refine ⟨location, rest, ⟨⟨text, blanks, htext, hall, ?_⟩, hrest⟩, hbehind⟩
  rw [hbytes, hmiddle]

/-- A line is read as samples exactly if a count stands behind its location, and targets behind the
count. -/
theorem readBodyLine_eq_sample_iff {count : Count} {targets : List (String × Count)} :
    readBodyLine span = .ok (.sample location count targets) ↔
      ∃ digits behind, IsBodyLine span.bytes location (digits ++ behind) ∧
        IsNumber digits count.toNat ∧ EndsWord behind ∧ AreTargets behind targets := by
  constructor
  · intro h
    obtain ⟨location, ⟨start, bytes⟩, hline, hbehind⟩ := isBodyLine_of_readBodyLine h
    cases hcount : leadingCount? bytes with
    | none =>
      obtain ⟨name, total, -, hsaid⟩ := (readBehind_of_none hcount start).1 hbehind
      cases hsaid
    | some n =>
      obtain ⟨digits, behind, rfl, hdigits, hends⟩ := leadingCount?_eq_some_iff.1 hcount
      obtain ⟨targets, htargets, hsaid⟩ := (readBehind_of_isNumber hdigits hends start).1 hbehind
      cases hsaid
      refine ⟨digits, behind, hline, ?_, hends, htargets⟩
      rwa [UInt64.toNat_ofNat', Nat.mod_eq_of_lt hdigits.fits]
  · rintro ⟨digits, behind, hline, hdigits, hends, htargets⟩
    obtain ⟨next, hread⟩ := readBodyLine_of_isBodyLine hline
    rw [hread, readBehind_of_isNumber hdigits hends]
    exact ⟨targets, htargets, by rw [UInt64.ofNat_toNat]⟩

/-- A line is read as a callee exactly if no count stands behind its location, but a name with a
number. -/
theorem readBodyLine_eq_callee_iff {site : Callsite} :
    readBodyLine span = .ok (.callee site) ↔
      ∃ behind total, IsBodyLine span.bytes site.location behind ∧ leadingCount? behind = none ∧
        IsNameCount behind site.callee total := by
  constructor
  · intro h
    obtain ⟨location, ⟨start, bytes⟩, hline, hbehind⟩ := isBodyLine_of_readBodyLine h
    cases hcount : leadingCount? bytes with
    | none =>
      obtain ⟨name, total, hname, hsaid⟩ := (readBehind_of_none hcount start).1 hbehind
      cases hsaid
      exact ⟨bytes, total, hline, hcount, hname⟩
    | some n =>
      obtain ⟨digits, behind, rfl, hdigits, hends⟩ := leadingCount?_eq_some_iff.1 hcount
      obtain ⟨targets, -, hsaid⟩ := (readBehind_of_isNumber hdigits hends start).1 hbehind
      cases hsaid
  · rintro ⟨behind, total, hline, hcount, hname⟩
    obtain ⟨next, hread⟩ := readBodyLine_of_isBodyLine hline
    rw [hread, readBehind_of_none hcount]
    exact ⟨site.callee, total, hname, rfl⟩

end Line

/-! ## Digits behind a location -/

section Digits

variable {span : Span} {location : Location} {digits behind : List UInt8}

/-- Digits behind a location that are a word of their own are the count if 64 bits hold it: the line
says that count and what was called, or it is refused. If 64 bits do not hold it the digits are
passed over for a count, and the line says a callee whose name begins with them, or it is refused;
and it is refused if no colon follows. -/
theorem said_of_digits (hline : IsBodyLine span.bytes location (digits ++ behind))
    (hne : digits ≠ []) (hdigits : ∀ b ∈ digits, Decimal.isDigit b = true)
    (hbehind : EndsWord behind) :
    (∀ said, readBodyLine span = .ok said ↔
      (Decimal.decode digits < UInt64.size ∧ ∃ count targets, count.toNat = Decimal.decode digits ∧
        AreTargets behind targets ∧ said = .sample location count targets) ∨
      (UInt64.size ≤ Decimal.decode digits ∧ ∃ name total,
        IsNameCount (digits ++ behind) name total ∧ said = .callee ⟨location, name⟩)) ∧
    (UInt64.size ≤ Decimal.decode digits → 0x3a ∉ behind →
      ∃ e, readBodyLine span = .error e) := by
  obtain ⟨next, hread⟩ := readBodyLine_of_isBodyLine hline
  have hcount := leadingCount?_append hne hdigits hbehind
  rw [hread]
  by_cases hfits : Decimal.decode digits < UInt64.size
  · have hnumber : IsNumber digits (Decimal.decode digits) := ⟨hne, hdigits, rfl, hfits⟩
    have hwide := Nat.not_le.2 hfits
    refine ⟨fun said => ?_, fun h => absurd h hwide⟩
    rw [readBehind_of_isNumber hnumber hbehind]
    constructor
    · rintro ⟨targets, htargets, rfl⟩
      exact .inl ⟨hfits, _, targets, UInt64.toNat_ofNat_of_lt' hfits, htargets, rfl⟩
    · rintro (⟨-, count, targets, hsame, htargets, rfl⟩ | ⟨hlarge, -⟩)
      · exact ⟨targets, htargets, by rw [← hsame, UInt64.ofNat_toNat]⟩
      · exact absurd hlarge hwide
  · rw [if_neg hfits] at hcount
    refine ⟨fun said => ?_, fun _ hcolon => ?_⟩
    · rw [readBehind_of_none hcount]
      simp [hfits, Nat.le_of_not_lt hfits]
    · cases hsaid : readBehind location ⟨next, digits ++ behind⟩ with
      | error e => exact ⟨e, rfl⟩
      | ok said =>
        obtain ⟨name, total, ⟨number, htext, -⟩, -⟩ := (readBehind_of_none hcount next).1 hsaid
        have hmem : 0x3a ∈ digits ++ behind := by rw [htext]; simp
        rcases List.mem_append.1 hmem with hmem | hmem
        · cases hdigits _ hmem
        · exact absurd hmem hcolon

/-- A count with a zero in front, and a name with a colon in it. -/
def paddedCount : Span := .ofBytes (encodeText "7.2: 042 a:b:1")

theorem said_of_paddedCount :
    IsBodyLine paddedCount.bytes (.ofLine 7 2) (encodeText "042" ++ encodeText " a:b:1") ∧
      readBodyLine paddedCount = .ok (.sample (.ofLine 7 2) 42 [("a:b", 1)]) := by
  have hlocation : IsLocation ([0x37] ++ 0x2e :: [0x32]) (.ofLine 7 2) :=
    have hseven : IsNumber [0x37] 7 := by decide
    have htwo : IsNumber [0x32] 2 := by decide
    .discriminator hseven (by decide) htwo (by decide)
  have hline : IsBodyLine paddedCount.bytes (.ofLine 7 2)
      (encodeText "042" ++ encodeText " a:b:1") :=
    ⟨⟨_, [0x20], hlocation, by decide, by decide +kernel⟩, by decide +kernel⟩
  have hdigits : IsNumber (encodeText "042") 42 := by decide +kernel
  have htargets : AreTargets (encodeText " a:b:1") [("a:b", 1)] := by
    have htokens : tokens (encodeText " a:b:1") = [encodeText "a:b:1"] := by decide +kernel
    have hone : IsNameCount (encodeText "a:b:1") "a:b" 1 :=
      ⟨[0x31], by decide +kernel, by decide⟩
    rw [AreTargets, htokens]
    exact .cons hone .nil
  have hsaid := (said_of_digits hline hdigits.ne_nil hdigits.all_digits
    (by decide +kernel)).1 (.sample (.ofLine 7 2) 42 [("a:b", 1)])
  refine ⟨hline, hsaid.2 (.inl ⟨?_, 42, _, hdigits.value.symm, htargets, rfl⟩)⟩
  rw [hdigits.value]
  decide

/-- Digits that 64 bits do not hold begin the name of a callee. -/
theorem large_digits_begin_a_callee :
    readBodyLine (.ofBytes (encodeText "1: 18446744073709551616 bar:5"))
      = .ok (.callee ⟨.ofLine 1 0, "18446744073709551616 bar"⟩) := by
  decide +kernel

end Digits

end SamplingProfile.Text
