-- The parts of a line, told by their bytes: numbers, locations, names with a number behind a colon,
-- and words between blanks. Each reader of a part takes exactly the bytes of that form.
import Mathlib.Data.List.Forall2
import Mathlib.Data.List.TakeWhile
import SamplingProfile.Text.Grammar

namespace SamplingProfile.Text

open Reader

/-! ## Readers one after the other -/

theorem except_bind_eq_ok {ε α β : Type} {x : Except ε α} {f : α → Except ε β} {b : β} :
    x >>= f = .ok b ↔ ∃ a, x = .ok a ∧ f a = .ok b := by
  constructor
  · intro h
    cases x with
    | error e => cases h
    | ok a => exact ⟨a, rfl, h⟩
  · rintro ⟨a, rfl, h⟩
    exact h

theorem exists_of_isOk {ε α : Type} {x : Except ε α} (h : x.isOk = true) : ∃ a, x = .ok a := by
  cases x with
  | error e => cases h
  | ok a => exact ⟨a, rfl⟩

theorem seqLeft_of_ok {α β : Type} {r : Reader α} {r' : Reader β} {span middle rest : Span} {a : α}
    {b : β} (h : r span = .ok (a, middle)) (h' : r' middle = .ok (b, rest)) :
    (r <* r') span = .ok (a, rest) := by
  rw [seqLeft_eq_bind, bind_of_ok h, bind_of_ok h']
  rfl

theorem seqLeft_eq_ok {α β : Type} {r : Reader α} {r' : Reader β} {span rest : Span} {a : α}
    (h : (r <* r') span = .ok (a, rest)) :
    ∃ b middle, r span = .ok (a, middle) ∧ r' middle = .ok (b, rest) := by
  rw [seqLeft_eq_bind, bind_eq_ok] at h
  obtain ⟨a', middle, hr, h⟩ := h
  obtain ⟨b, last, hr', h⟩ := bind_eq_ok.1 h
  cases h
  exact ⟨b, middle, hr, hr'⟩

theorem optional_of_ok {α : Type} {r : Reader α} {span rest : Span} {a : α}
    (h : r span = .ok (a, rest)) : Reader.optional r span = .ok (some a, rest) := by
  unfold Reader.optional
  rw [h]

/-- What may be left out was read, or the span is as it was. -/
theorem optional_eq_ok {α : Type} {r : Reader α} {span rest : Span} {a? : Option α}
    (h : Reader.optional r span = .ok (a?, rest)) :
    (∃ a, a? = some a ∧ r span = .ok (a, rest)) ∨ (a? = none ∧ rest = span) := by
  unfold Reader.optional at h
  split at h
  · rename_i a rest' hr
    cases h
    exact .inl ⟨a, rfl, hr⟩
  · split at h
    · cases h
    · cases h
      exact .inr ⟨rfl, rfl⟩

/-! ## What stands in front -/

section Front

variable {p : UInt8 → Bool} {front back : List UInt8}

theorem takeWhile_dropWhile (p : UInt8 → Bool) (bytes : List UInt8) :
    (bytes.dropWhile p).takeWhile p = [] := by
  induction bytes with
  | nil => rfl
  | cons b bytes ih =>
    rw [List.dropWhile_cons]
    split
    · exact ih
    · rename_i hb
      rw [List.takeWhile_cons, if_neg hb]

theorem drop_length_takeWhile (p : UInt8 → Bool) (bytes : List UInt8) :
    bytes.drop (bytes.takeWhile p).length = bytes.dropWhile p := by
  have hdrop : (bytes.takeWhile p ++ bytes.dropWhile p).drop (bytes.takeWhile p).length
      = bytes.dropWhile p := List.drop_left
  rwa [List.takeWhile_append_dropWhile] at hdrop

theorem dropWhile_eq_self (h : back.takeWhile p = []) : back.dropWhile p = back := by
  have hsplit := List.takeWhile_append_dropWhile (p := p) (l := back)
  rwa [h, List.nil_append] at hsplit

/-- Where nothing is in front of some bytes nothing is in front of their beginning. -/
theorem takeWhile_eq_nil_of_append (h : (front ++ back).takeWhile p = []) :
    front.takeWhile p = [] := by
  cases front with
  | nil => rfl
  | cons b rest =>
    rw [List.cons_append, List.takeWhile_cons] at h
    rw [List.takeWhile_cons]
    split
    · rename_i hb
      rw [if_pos hb] at h
      cases h
    · rfl

/-- What is taken from the front ends where the first byte of another kind stands. -/
theorem takeWhile_append_eq_left (hfront : ∀ b ∈ front, p b = true)
    (hback : back.takeWhile p = []) :
    (front ++ back).takeWhile p = front := by
  rw [List.takeWhile_append_of_pos hfront, hback, List.append_nil]

theorem dropWhile_append_eq_right (hfront : ∀ b ∈ front, p b = true)
    (hback : back.takeWhile p = []) : (front ++ back).dropWhile p = back := by
  rw [List.dropWhile_append_of_pos hfront, dropWhile_eq_self hback]

end Front

theorem readByte_cons (b : UInt8) (problem : Problem) (start : Nat) (rest : List UInt8) :
    readByte b problem ⟨start, b :: rest⟩ = .ok ((), ⟨start + 1, rest⟩) := by
  rw [readByte, bind_of_ok (run_get _), if_pos (List.head?_cons)]
  rfl

theorem readByte_eq_ok {b : UInt8} {problem : Problem} {span rest : Span} {u : Unit}
    (h : readByte b problem span = .ok (u, rest)) : span.bytes = b :: rest.bytes := by
  rw [readByte, bind_of_ok (run_get span)] at h
  split at h
  · rename_i hhead
    cases h
    obtain ⟨tail, htail⟩ := List.head?_eq_some_iff.1 hhead
    simp [Span.drop, htail]
  · cases h

theorem isBlank_of_isDigit {b : UInt8} (h : Decimal.isDigit b = true) : isBlank b = false := by
  cases hb : isBlank b with
  | false => rfl
  | true =>
    rw [isBlank, decide_eq_true_iff] at hb
    rcases hb with rfl | rfl <;> cases h

/-- Spaces and tabs, at least one of them. -/
def IsBlanks (blanks : List UInt8) : Prop := blanks ≠ [] ∧ ∀ b ∈ blanks, isBlank b = true

instance (blanks : List UInt8) : Decidable (IsBlanks blanks) :=
  decidable_of_iff (blanks ≠ [] ∧ blanks.all isBlank = true) (and_congr_right' List.all_eq_true)

theorem readBlanks_append {blanks rest : List UInt8} (h : IsBlanks blanks)
    (hrest : rest.takeWhile isBlank = []) (start : Nat) :
    readBlanks ⟨start, blanks ++ rest⟩ = .ok ((), ⟨start + blanks.length, rest⟩) := by
  have htake := takeWhile_append_eq_left h.2 hrest
  have hdrop : (blanks ++ rest).drop blanks.length = rest := List.drop_left
  obtain ⟨b, tail, hcons⟩ := List.exists_cons_of_ne_nil h.1
  rw [readBlanks, bind_of_ok (run_get _)]
  simp only [htake]
  rw [hcons] at hdrop ⊢
  simp only [List.length_cons] at hdrop ⊢
  rw [Span.drop, hdrop]
  rfl

/-- Blanks are taken up to what is no blank. -/
theorem readBlanks_eq_ok {span rest : Span} {u : Unit} (h : readBlanks span = .ok (u, rest)) :
    ∃ blanks, IsBlanks blanks ∧ span.bytes = blanks ++ rest.bytes ∧
      rest.bytes.takeWhile isBlank = [] := by
  rw [readBlanks, bind_of_ok (run_get span)] at h
  have hsplit := List.takeWhile_append_dropWhile (p := isBlank) (l := span.bytes)
  have hdrop := drop_length_takeWhile isBlank span.bytes
  have hall : ∀ b ∈ span.bytes.takeWhile isBlank, isBlank b = true :=
    List.all_eq_true.1 List.all_takeWhile
  cases hblanks : span.bytes.takeWhile isBlank with
  | nil =>
    rw [hblanks] at h
    cases h
  | cons b blanks =>
    rw [hblanks] at h hdrop hall hsplit
    cases h
    rw [Span.drop, hdrop]
    exact ⟨b :: blanks, ⟨List.cons_ne_nil b blanks, hall⟩, hsplit.symm,
      takeWhile_dropWhile isBlank span.bytes⟩

/-! ## Numbers -/

/-- Digits of a number of 64 bits. Zeros may stand in front. -/
structure IsNumber (digits : List UInt8) (n : Nat) : Prop where
  ne_nil : digits ≠ []
  all_digits : ∀ b ∈ digits, Decimal.isDigit b = true
  value : Decimal.decode digits = n
  fits : n < UInt64.size

instance (digits : List UInt8) (n : Nat) : Decidable (IsNumber digits n) :=
  decidable_of_iff (digits ≠ [] ∧ digits.all Decimal.isDigit = true ∧
      Decimal.decode digits = n ∧ n < UInt64.size)
    ⟨fun h => ⟨h.1, List.all_eq_true.1 h.2.1, h.2.2.1, h.2.2.2⟩,
      fun h => ⟨h.ne_nil, List.all_eq_true.2 h.all_digits, h.value, h.fits⟩⟩

theorem isNumber_encode {n : Nat} (hn : n < UInt64.size) : IsNumber (Decimal.encode n) n :=
  ⟨Decimal.encode_ne_nil n, Decimal.isDigit_encode n, Decimal.decode_encode n, hn⟩

theorem IsNumber.colon_notMem {digits : List UInt8} {n : Nat} (h : IsNumber digits n) :
    0x3a ∉ digits := fun hmem => nomatch h.all_digits _ hmem

theorem IsNumber.takeWhile_isBlank {digits : List UInt8} {n : Nat} (h : IsNumber digits n)
    (rest : List UInt8) : (digits ++ rest).takeWhile isBlank = [] := by
  obtain ⟨b, tail, hcons⟩ := List.exists_cons_of_ne_nil h.ne_nil
  have hdigit := h.all_digits b (hcons ▸ List.mem_cons_self)
  rw [hcons, List.cons_append, List.takeWhile_cons, isBlank_of_isDigit hdigit]
  rfl

theorem readDecimal_append {digits rest : List UInt8} {n : Nat} (h : IsNumber digits n)
    (hrest : rest.takeWhile Decimal.isDigit = []) (start : Nat) :
    readDecimal ⟨start, digits ++ rest⟩ = .ok (n, ⟨start + digits.length, rest⟩) := by
  have hdrop : (digits ++ rest).drop digits.length = rest := List.drop_left
  rw [readDecimal, bind_of_ok (run_get _)]
  simp only [takeWhile_append_eq_left h.all_digits hrest, h.ne_nil, h.value, h.fits, if_false,
    if_true, Span.drop, hdrop]
  rfl

/-- A number is read from the digits in front. -/
theorem readDecimal_eq_ok {span rest : Span} {n : Nat} (h : readDecimal span = .ok (n, rest)) :
    ∃ digits, IsNumber digits n ∧ span.bytes = digits ++ rest.bytes ∧
      rest.bytes.takeWhile Decimal.isDigit = [] := by
  have hsplit := List.takeWhile_append_dropWhile (p := Decimal.isDigit) (l := span.bytes)
  rw [readDecimal, bind_of_ok (run_get _)] at h
  by_cases hdigits : span.bytes.takeWhile Decimal.isDigit = []
  · simp only [hdigits, if_true] at h
    cases h
  · by_cases hsize : Decimal.decode (span.bytes.takeWhile Decimal.isDigit) < UInt64.size
    · simp only [hdigits, if_false, hsize, if_true] at h
      cases h
      refine ⟨_, ⟨hdigits, List.all_eq_true.1 List.all_takeWhile, rfl, hsize⟩, ?_⟩
      rw [Span.drop, drop_length_takeWhile]
      exact ⟨hsplit.symm, takeWhile_dropWhile _ _⟩
    · simp only [hdigits, if_false, hsize] at h
      cases h

theorem nil_of_readEnd {span rest : Span} {u : Unit} (h : readEnd span = .ok (u, rest)) :
    span.bytes = [] := by
  rw [readEnd, bind_of_ok (run_get _)] at h
  by_cases hnil : span.bytes = []
  · exact hnil
  · rw [if_pos hnil] at h
    cases h

theorem readNumber_of_isNumber {digits : List UInt8} {n : Nat} (h : IsNumber digits n)
    (start : Nat) : readNumber ⟨start, digits⟩ = .ok (n, ⟨start + digits.length, []⟩) := by
  have hnone : ([] : List UInt8).takeWhile Decimal.isDigit = [] := rfl
  have hdecimal := readDecimal_append h hnone start
  rw [List.append_nil] at hdecimal
  rw [readNumber, bind_of_ok hdecimal]
  rfl

/-- A number up to the end has nothing but digits. -/
theorem isNumber_of_readNumber {span rest : Span} {n : Nat} (h : readNumber span = .ok (n, rest)) :
    IsNumber span.bytes n := by
  rw [readNumber, bind_eq_ok] at h
  obtain ⟨n', middle, hdecimal, h⟩ := h
  obtain ⟨_, last, hend, hsame⟩ := bind_eq_ok.1 h
  cases hsame
  obtain ⟨digits, hdigits, hbytes, -⟩ := readDecimal_eq_ok hdecimal
  rw [nil_of_readEnd hend, List.append_nil] at hbytes
  rwa [hbytes]

/-! ## Locations -/

theorem readHalf_append {digits rest : List UInt8} {n : Nat} (h : IsNumber digits n)
    (hn : n ≤ 0xffff) (hrest : rest.takeWhile Decimal.isDigit = []) (start : Nat) :
    readHalf ⟨start, digits ++ rest⟩
      = .ok (UInt32.ofNat n, ⟨start + digits.length, rest⟩) := by
  rw [readHalf, bind_of_ok (run_get _), bind_of_ok (readDecimal_append h hrest start),
    if_neg (Nat.not_lt.2 hn)]
  rfl

theorem readHalf_eq_ok {span rest : Span} {half : UInt32} (h : readHalf span = .ok (half, rest)) :
    ∃ digits n, IsNumber digits n ∧ n ≤ 0xffff ∧ half = UInt32.ofNat n ∧
      span.bytes = digits ++ rest.bytes := by
  rw [readHalf, bind_of_ok (run_get span)] at h
  obtain ⟨n, middle, hdecimal, h⟩ := bind_eq_ok.1 h
  split at h
  · cases h
  · rename_i hn
    cases h
    obtain ⟨digits, hdigits, hbytes, -⟩ := readDecimal_eq_ok hdecimal
    exact ⟨digits, n, hdigits, Nat.le_of_not_lt hn, rfl, hbytes⟩

/-- A line, and a discriminator behind a dot unless that is left out; each of at most 16 bits. -/
inductive IsLocation : List UInt8 → Location → Prop
  | line {digits : List UInt8} {n : Nat} (h : IsNumber digits n) (hn : n ≤ 0xffff) :
    IsLocation digits (.ofLine (UInt32.ofNat n) 0)
  | discriminator {digits digits' : List UInt8} {n d : Nat} (h : IsNumber digits n)
    (hn : n ≤ 0xffff) (h' : IsNumber digits' d) (hd : d ≤ 0xffff) :
    IsLocation (digits ++ 0x2e :: digits') (.ofLine (UInt32.ofNat n) (UInt32.ofNat d))

theorem IsLocation.colon_notMem {text : List UInt8} {location : Location}
    (h : IsLocation text location) : 0x3a ∉ text := by
  cases h with
  | line h hn => exact h.colon_notMem
  | discriminator h hn h' hd =>
    rw [List.mem_append, List.mem_cons]
    rintro (hmem | hdot | hmem)
    · exact h.colon_notMem hmem
    · cases hdot
    · exact h'.colon_notMem hmem

theorem IsLocation.takeWhile_isBlank {text : List UInt8} {location : Location}
    (h : IsLocation text location) (rest : List UInt8) :
    (text ++ rest).takeWhile isBlank = [] := by
  cases h with
  | line h hn => exact h.takeWhile_isBlank rest
  | discriminator h hn h' hd =>
    rw [List.append_assoc]
    exact h.takeWhile_isBlank _

theorem readLocation_append {text : List UInt8} {location : Location} (h : IsLocation text location)
    (rest : List UInt8) (start : Nat) :
    ∃ next, readLocation ⟨start, text ++ 0x3a :: rest⟩ = .ok (location, ⟨next, rest⟩) := by
  have hcolon : (0x3a :: rest).takeWhile Decimal.isDigit = [] := rfl
  cases h with
  | line h hn =>
    have hnone : Reader.optional (do readByte 0x2e .expectedColon; readHalf)
        ⟨start + text.length, 0x3a :: rest⟩
          = .ok (none, ⟨start + text.length, 0x3a :: rest⟩) := rfl
    refine ⟨start + text.length + 1, ?_⟩
    rw [readLocation, bind_of_ok (readHalf_append h hn hcolon start), bind_of_ok hnone,
      bind_of_ok (readByte_cons _ _ _ _)]
    rfl
  | @discriminator digits digits' n d h hn h' hd =>
    have hdot : (0x2e :: (digits' ++ 0x3a :: rest)).takeWhile Decimal.isDigit = [] := rfl
    have hsome := optional_of_ok ((bind_of_ok (f := fun _ => readHalf)
      (readByte_cons 0x2e .expectedColon (start + digits.length) (digits' ++ 0x3a :: rest))).trans
      (readHalf_append h' hd hcolon _))
    refine ⟨start + digits.length + 1 + digits'.length + 1, ?_⟩
    rw [List.append_assoc, List.cons_append, readLocation,
      bind_of_ok (readHalf_append h hn hdot start), bind_of_ok hsome,
      bind_of_ok (readByte_cons _ _ _ _)]
    rfl

/-- A location that is read ends at a colon. -/
theorem readLocation_eq_ok {span rest : Span} {location : Location}
    (h : readLocation span = .ok (location, rest)) :
    ∃ text, IsLocation text location ∧ span.bytes = text ++ 0x3a :: rest.bytes := by
  rw [readLocation, bind_eq_ok] at h
  obtain ⟨line, behindLine, hline, h⟩ := h
  obtain ⟨discriminator?, behind, hoptional, h⟩ := bind_eq_ok.1 h
  obtain ⟨_, last, hcolon, hsame⟩ := bind_eq_ok.1 h
  cases hsame
  obtain ⟨digits, n, hn, hsize, rfl, hbytes⟩ := readHalf_eq_ok hline
  have hbehind := readByte_eq_ok hcolon
  rcases optional_eq_ok hoptional with ⟨half, rfl, hboth⟩ | ⟨rfl, rfl⟩
  · obtain ⟨_, middle, hdot, hhalf⟩ := bind_eq_ok.1 hboth
    obtain ⟨digits', d, hd, hsize', rfl, hbytes'⟩ := readHalf_eq_ok hhalf
    refine ⟨digits ++ 0x2e :: digits', .discriminator hn hsize hd hsize', ?_⟩
    rw [hbytes, readByte_eq_ok hdot, hbytes', hbehind, List.append_assoc, List.cons_append]
  · exact ⟨digits, .line hn hsize, by rw [hbytes, hbehind]⟩

/-! ## Names -/

/-- A name and what follows the last colon behind it. -/
theorem splitLastColon_append (start : Nat) (front : List UInt8) {back : List UInt8}
    (hback : 0x3a ∉ back) :
    splitLastColon ⟨start, front ++ 0x3a :: back⟩
      = some (⟨start, front⟩, ⟨start + (front.length + 1), back⟩) := by
  have hafter : ∀ b ∈ back.reverse, decide (b ≠ 0x3a) = true := by
    intro b hb
    rw [decide_eq_true_iff]
    rintro rfl
    exact hback (List.mem_reverse.1 hb)
  have hbefore : (front ++ 0x3a :: back).reverse.dropWhile (· ≠ 0x3a) = 0x3a :: front.reverse := by
    rw [List.reverse_append, List.reverse_cons, List.append_assoc,
      List.dropWhile_append_of_pos hafter]
    rfl
  have hdrop : (front ++ 0x3a :: back).drop (front.length + 1) = back := by
    have hleft : ((front ++ [0x3a]) ++ back).drop (front ++ [0x3a]).length = back :=
      List.drop_left
    rwa [List.append_assoc, List.length_append] at hleft
  unfold splitLastColon
  rw [hbefore]
  simp only [List.tail?_cons, List.reverse_reverse, List.length_reverse, Span.drop, hdrop]

/-- Bytes are parted at the last colon in one way only. -/
theorem eq_of_append_colon {front front' back back' : List UInt8}
    (h : front ++ 0x3a :: back = front' ++ 0x3a :: back') (hback : 0x3a ∉ back)
    (hback' : 0x3a ∉ back') : front = front' ∧ back = back' := by
  have hsplit := splitLastColon_append 0 front hback
  rw [h, splitLastColon_append 0 front' hback'] at hsplit
  cases hsplit
  exact ⟨rfl, rfl⟩

theorem splitLastColon_eq_some {span front back : Span}
    (h : splitLastColon span = some (front, back)) :
    span.bytes = front.bytes ++ 0x3a :: back.bytes := by
  unfold splitLastColon at h
  have hsplit := List.takeWhile_append_dropWhile (p := fun b : UInt8 => decide (b ≠ 0x3a))
    (l := span.bytes.reverse)
  cases hdrop : span.bytes.reverse.dropWhile (· ≠ 0x3a) with
  | nil =>
    rw [hdrop] at h
    cases h
  | cons b before =>
    have hcolon := List.head?_dropWhile_not (fun b : UInt8 => decide (b ≠ 0x3a)) span.bytes.reverse
    rw [hdrop] at h hcolon hsplit
    obtain rfl : b = 0x3a := by simpa using hcolon
    cases h
    generalize span.bytes.reverse.takeWhile (· ≠ 0x3a) = after at hsplit
    have hbytes := congrArg List.reverse hsplit
    rw [List.reverse_append, List.reverse_cons, List.append_assoc, List.reverse_reverse] at hbytes
    have hback : span.bytes.drop (before.length + 1) = after.reverse := by
      rw [← hbytes, ← List.append_assoc, List.drop_left' (by simp)]
    simp only [Span.drop, hback]
    exact hbytes.symm

/-- A name with a number behind the last colon. The name may hold anything, colons too. -/
def IsNameCount (text : List UInt8) (name : String) (n : Nat) : Prop :=
  ∃ digits, text = encodeText name ++ 0x3a :: digits ∧ IsNumber digits n

theorem IsNameCount.fits {text : List UInt8} {name : String} {n : Nat}
    (h : IsNameCount text name n) : n < UInt64.size := by
  obtain ⟨digits, -, hdigits⟩ := h
  exact hdigits.fits

theorem readNameCount_eq_ok_iff {span : Span} {name : String} {n : Nat} :
    readNameCount span = .ok (name, n) ↔ IsNameCount span.bytes name n := by
  constructor
  · intro h
    unfold readNameCount at h
    split at h
    · cases h
    · rename_i front back hsplit
      split at h
      · cases h
      · rename_i text htext
        obtain ⟨result, hnumber, hsame⟩ := except_bind_eq_ok.1 h
        cases hsame
        refine ⟨back.bytes, ?_, isNumber_of_readNumber hnumber⟩
        rw [encodeText_of_decodeText? htext]
        exact splitLastColon_eq_some hsplit
  · obtain ⟨start, bytes⟩ := span
    rintro ⟨digits, rfl, hdigits⟩
    rw [readNameCount, splitLastColon_append _ _ hdigits.colon_notMem]
    dsimp only
    rw [decodeText?_encodeText]
    dsimp only
    rw [readNumber_of_isNumber hdigits]
    rfl

/-- A function is named in front of its total, and how often it was entered comes last. -/
theorem readFunctionLine_eq_ok_iff {span : Span} {name : String} {total entryCount : Nat} :
    readFunctionLine span = .ok (name, total, entryCount) ↔
      ∃ front entries, span.bytes = front ++ 0x3a :: entries ∧ IsNameCount front name total ∧
        IsNumber entries entryCount := by
  constructor
  · intro h
    unfold readFunctionLine at h
    split at h
    · cases h
    · rename_i front entries hsplit
      obtain ⟨⟨n, rest⟩, hnumber, hrest⟩ := except_bind_eq_ok.1 h
      obtain ⟨_, hname, hsame⟩ := except_bind_eq_ok.1 hrest
      cases hsame
      exact ⟨front.bytes, entries.bytes, splitLastColon_eq_some hsplit,
        readNameCount_eq_ok_iff.1 hname, isNumber_of_readNumber hnumber⟩
  · obtain ⟨start, bytes⟩ := span
    rintro ⟨front, entries, rfl, hname, hentries⟩
    rw [readFunctionLine, splitLastColon_append _ _ hentries.colon_notMem]
    dsimp only
    rw [readNumber_of_isNumber hentries]
    dsimp only [bind, Except.bind]
    rw [readNameCount_eq_ok_iff.2 hname]
    rfl

/-! ## Words -/

/-- The words between spaces and tabs. -/
def tokens (bytes : List UInt8) : List (List UInt8) := (bytes.splitOnP isBlank).filter (· ≠ [])

theorem tokens_append_cons (front back : List UInt8) {b : UInt8} (hb : isBlank b = true) :
    tokens (front ++ b :: back) = tokens front ++ tokens back := by
  rw [tokens, List.splitOnP_append_cons _ _ hb, List.filter_append]
  rfl

theorem tokens_blank_append {blanks : List UInt8} (h : ∀ b ∈ blanks, isBlank b = true)
    (rest : List UInt8) : tokens (blanks ++ rest) = tokens rest := by
  induction blanks with
  | nil => rfl
  | cons b blanks ih =>
    rw [List.forall_mem_cons] at h
    exact (tokens_append_cons [] (blanks ++ rest) h.1).trans (ih h.2)

/-- Bytes that are one word: some, and none of them blank. -/
def IsWord (word : List UInt8) : Prop := word ≠ [] ∧ ∀ b ∈ word, isBlank b = false

theorem tokens_of_isWord {word : List UInt8} (h : IsWord word) : tokens word = [word] := by
  rw [tokens, List.splitOnP_eq_singleton h.2, List.filter_cons, if_pos (decide_eq_true h.1)]
  rfl

theorem tokens_word_append {word rest : List UInt8} (h : IsWord word)
    (hrest : rest.takeWhile (fun b => !isBlank b) = []) :
    tokens (word ++ rest) = word :: tokens rest := by
  cases rest with
  | nil => rw [List.append_nil, tokens_of_isWord h]; rfl
  | cons b rest =>
    have hb : isBlank b = true := by
      cases hb : isBlank b with
      | true => rfl
      | false =>
        rw [List.takeWhile_cons, hb] at hrest
        cases hrest
    have hnone := tokens_append_cons [] rest hb
    rw [tokens_append_cons word rest hb, tokens_of_isWord h]
    exact congrArg (word :: ·) hnone.symm

/-- The words that are found are the tokens. -/
theorem bytes_words (span : Span) : (words span).map Span.bytes = tokens span.bytes := by
  fun_induction words span with
  | case1 span hnil =>
    have hnone := tokens_blank_append (List.dropWhile_eq_nil_iff.1 hnil) []
    rw [List.append_nil] at hnone
    exact hnone.symm
  | case2 span b rest hdrop n word ih =>
    have hblanks : ∀ x ∈ span.bytes.takeWhile isBlank, isBlank x = true :=
      List.all_eq_true.1 List.all_takeWhile
    have hb : isBlank b = false := by
      have hhead := List.head?_dropWhile_not isBlank span.bytes
      rw [hdrop] at hhead
      simpa using hhead
    have hword : IsWord word := by
      refine ⟨by simp [word, hb], fun x hx => ?_⟩
      simpa using List.all_eq_true.1 List.all_takeWhile x hx
    have hbehind : (b :: rest).drop word.length = (b :: rest).dropWhile fun b => !isBlank b :=
      drop_length_takeWhile _ _
    have hfirst := tokens_word_append hword
      (takeWhile_dropWhile (fun b => !isBlank b) (b :: rest))
    rw [List.takeWhile_append_dropWhile] at hfirst
    rw [List.map_cons, ih, hbehind, ← hfirst, ← hdrop, ← tokens_blank_append hblanks,
      List.takeWhile_append_dropWhile]

/-- A token stands in the bytes, and has no blank. -/
theorem subset_of_mem_tokens {bytes word : List UInt8} (h : word ∈ tokens bytes) :
    word ⊆ bytes ∧ ∀ b ∈ word, isBlank b = false := by
  have hwords : ∀ span : Span, ∀ w ∈ words span,
      w.bytes ⊆ span.bytes ∧ ∀ b ∈ w.bytes, isBlank b = false := by
    intro span w hw
    fun_induction words span with
    | case1 span hnil => cases hw
    | case2 span b rest hdrop n word ih =>
      have hsub : b :: rest ⊆ span.bytes := hdrop ▸ (List.dropWhile_suffix isBlank).subset
      rcases List.mem_cons.1 hw with rfl | hw
      · refine ⟨List.Subset.trans (List.takeWhile_prefix _).subset hsub, fun x hx => ?_⟩
        simpa using List.all_eq_true.1 List.all_takeWhile x hx
      · obtain ⟨hin, hblank⟩ := ih hw
        exact ⟨List.Subset.trans (List.Subset.trans hin (List.drop_suffix _ _).subset) hsub,
          hblank⟩
  rw [← bytes_words ⟨0, bytes⟩] at h
  obtain ⟨w, hw, rfl⟩ := List.mem_map.1 h
  exact hwords ⟨0, bytes⟩ w hw

/-- Every word is read as a name with its count. -/
theorem readTargets_eq_ok_iff {span : Span} {targets : List (String × Count)} :
    readTargets span = .ok targets ↔
      List.Forall₂ (fun word t => IsNameCount word t.1 t.2.toNat) (tokens span.bytes) targets := by
  rw [← bytes_words, List.forall₂_map_left_iff, readTargets]
  generalize words span = ws
  induction ws generalizing targets with
  | nil =>
    rw [List.mapM_nil, List.forall₂_nil_left_iff]
    constructor
    · intro h
      cases h
      rfl
    · rintro rfl
      rfl
  | cons w ws ih =>
    rw [List.mapM_cons, List.forall₂_cons_left_iff]
    constructor
    · intro h
      obtain ⟨t, hfirst, hmore⟩ := except_bind_eq_ok.1 h
      obtain ⟨rest, hrest, hsame⟩ := except_bind_eq_ok.1 hmore
      obtain ⟨⟨name, n⟩, hname, ht⟩ := except_bind_eq_ok.1 hfirst
      cases hsame
      cases ht
      rw [readNameCount_eq_ok_iff] at hname
      refine ⟨_, rest, ?_, ih.1 hrest, rfl⟩
      have hfits : n < UInt64.size := hname.fits
      simpa [Nat.mod_eq_of_lt hfits] using hname
    · rintro ⟨t, rest, hname, hrest, rfl⟩
      rw [readNameCount_eq_ok_iff.2 hname, ih.2 hrest]
      simp [bind, Except.bind, pure, Except.pure]

end SamplingProfile.Text
