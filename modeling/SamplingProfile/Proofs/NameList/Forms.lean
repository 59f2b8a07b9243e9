-- The two forms of a list of names. What is read of a list is settled by its three numbers and by
-- the payload; whether the payload stands there as it is or in a stream that gives it makes no
-- difference, be it a list of names or not. Only the errors differ, for in a stream there is no
-- place to name. A stream that gives more or less than was announced is refused.
import SamplingProfile.Proofs.Reading.Anywhere

namespace SamplingProfile

open Reader

namespace NameList

/-! ## The numbers in front -/

theorem leb128_of_le {n : Nat} (h : UInt64.size ≤ n) (start : Nat) (back : List UInt8) :
    ∃ e, leb128 ⟨start, Leb128.encode n ++ back⟩ = .error e := by
  refine ⟨{ problem := .oversizedNumber, offset := start }, ?_⟩
  rw [leb128, Leb128.decode_encode_of_le h back]
  rfl

/-- Numbers of more than 64 bits are refused, whatever stands behind them. -/
theorem read_numbers_of_le {count size : Nat} (h : ¬(count < UInt64.size ∧ size < UInt64.size))
    (compressed start : Nat) (back : List UInt8) :
    ∃ e, NameList.read ⟨start, numbers count size compressed ++ back⟩ = .error e := by
  unfold numbers
  rw [read_eq, List.append_assoc, List.append_assoc]
  by_cases hcount : count < UInt64.size
  · have hsize : UInt64.size ≤ size := Nat.not_lt.1 fun hsize => h ⟨hcount, hsize⟩
    rw [bind_of_ok (restores_leb128 hcount _ rfl start _)]
    obtain ⟨e, he⟩ := leb128_of_le hsize (start + (Leb128.encode count).length)
      (Leb128.encode compressed ++ back)
    exact ⟨e, error_bind he⟩
  · obtain ⟨e, he⟩ := leb128_of_le (Nat.not_lt.1 hcount) start
      (Leb128.encode size ++ (Leb128.encode compressed ++ back))
    exact ⟨e, error_bind he⟩

/-! ## What is stored -/

/-- The names that stored bytes hold, if they hold names at all. -/
def stored? (size compressed : Nat) (stored : List UInt8) : Option (List String) :=
  (storedNames size compressed (.ofBytes stored)).toOption

theorem stored?_plain (size : Nat) (plain : List UInt8) :
    stored? size 0 plain = (payloadNames (.ofBytes plain)).toOption := by
  unfold stored? storedNames
  rw [if_pos rfl, toOption_mapError]

/-- A stream holds the names of its content, if that has as many bytes as were announced. -/
theorem stored?_packed {packed plain : List UInt8} (hz : Zlib.inflate? packed = some plain)
    {compressed : Nat} (hc : compressed ≠ 0) (size : Nat) :
    stored? size compressed packed =
      if plain.length = size then (payloadNames (.ofBytes plain)).toOption else none := by
  unfold stored? storedNames
  rw [if_neg hc, Span.ofBytes, toOption_compressedNames, hz]
  by_cases hsize : plain.length = size
  · simp [Option.filter_some, hsize]
  · simp [Option.filter_some, hsize]

theorem outcome_counted (count : Nat) (span back : Span) (x : Except ParseError (List String)) :
    (counted count span x).outcome back =
      (x.toOption.filter fun names => names.length = count).map fun names =>
        (names, back.bytes) := by
  cases x with
  | error e => rfl
  | ok names =>
    rw [counted, Except.toOption, Option.filter_some]
    by_cases hcount : names.length = count
    · simp [hcount, outcome_of_ok (run_pure names back)]
    · simp only [hcount, decide_false, if_false, Bool.false_eq_true]
      rfl

/-- A list is read exactly if its numbers have 64 bits and there are as many names as they say. -/
theorem outcome_read {count size compressed : Nat} {stored : List UInt8}
    (hcompressed : compressed < UInt64.size)
    (hlen : (if compressed = 0 then size else compressed) = stored.length) (start : Nat)
    (tail : List UInt8) :
    NameList.read.outcome ⟨start, numbers count size compressed ++ (stored ++ tail)⟩ =
      if count < UInt64.size ∧ size < UInt64.size then
        ((stored? size compressed stored).filter fun names => names.length = count).map
          fun names => (names, tail)
      else none := by
  by_cases hfit : count < UInt64.size ∧ size < UInt64.size
  · unfold outcome
    rw [if_pos hfit, read_numbers hfit.1 hfit.2 hcompressed, readStored_append hlen, stored?,
      Span.ofBytes, toOption_storedNames size compressed 0 (start + _)]
    exact outcome_counted ..
  · obtain ⟨e, he⟩ := read_numbers_of_le hfit compressed start (stored ++ tail)
    rw [if_neg hfit, outcome_of_error he]

/-! ## One payload in two forms -/

theorem ne_nil_of_inflate? {packed plain : List UInt8} (h : Zlib.inflate? packed = some plain) :
    packed ≠ [] := by
  rintro rfl
  cases h

/-- A stream of a payload is read as the payload itself is, whatever the payload holds: both give
the same names and leave what follows, or both are refused. With any other size in front the
stream is refused. -/
theorem forms_agree {packed plain : List UInt8} (hz : Zlib.inflate? packed = some plain)
    (hpacked : packed.length < UInt64.size) (count start : Nat) (tail : List UInt8) :
    NameList.read.outcome
        ⟨start, numbers count plain.length packed.length ++ (packed ++ tail)⟩
      = NameList.read.outcome ⟨start, numbers count plain.length 0 ++ (plain ++ tail)⟩ ∧
    (∀ names rest, NameList.read.outcome
        ⟨start, numbers count plain.length 0 ++ (plain ++ tail)⟩ = some (names, rest) →
      names.length = count ∧ rest = tail) ∧
    ∀ size, size ≠ plain.length → NameList.read.outcome
        ⟨start, numbers count size packed.length ++ (packed ++ tail)⟩ = none := by
  have hne : packed.length ≠ 0 := by
    intro hzero
    exact ne_nil_of_inflate? hz (List.length_eq_zero_iff.1 hzero)
  have hplain := @outcome_read count plain.length 0 plain (by decide) (if_pos rfl) start tail
  rw [stored?_plain] at hplain
  refine ⟨?_, ?_, ?_⟩
  · rw [hplain, outcome_read hpacked (if_neg hne), stored?_packed hz hne, if_pos rfl]
  · intro names rest h
    rw [hplain] at h
    split at h
    · obtain ⟨found, hfound, hpair⟩ := Option.map_eq_some_iff.1 h
      cases hpair
      exact ⟨of_decide_eq_true (Option.filter_eq_some_iff.1 hfound).2, rfl⟩
    · cases h
  · intro size hsize
    rw [outcome_read hpacked (if_neg hne), stored?_packed hz hne, if_neg (Ne.symm hsize)]
    exact ite_self _

/-- A stream of four names that are the same. -/
def packedMains : List UInt8 :=
  [0x78, 0xda, 0x63, 0xc9, 0x4d, 0xcc, 0xcc, 0x63, 0x41, 0x25, 0x00, 0x42, 0x8e, 0x06, 0xa5]

theorem forms_of_packedMains :
    NameList.read.outcome ⟨0, numbers 4 20 15 ++ (packedMains ++ [0xaa])⟩
      = some (["main", "main", "main", "main"], [0xaa]) ∧
    NameList.read.outcome ⟨0, numbers 4 19 15 ++ (packedMains ++ [0xaa])⟩ = none := by
  have hz : Zlib.inflate? packedMains = some (payload ["main", "main", "main", "main"]) := by
    decide +kernel
  obtain ⟨hsame, -, hother⟩ := forms_agree hz (by decide) 4 0 [0xaa]
  have hlength : (payload ["main", "main", "main", "main"]).length = 20 := by decide +kernel
  rw [hlength] at hsame hother
  refine ⟨hsame.trans ?_, hother 19 (by decide)⟩
  decide +kernel

end NameList

end SamplingProfile
