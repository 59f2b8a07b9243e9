-- Numbers are exact. A word of 64 bits may give its groups of seven bits away from the lowest on,
-- and take them back one by one, each shifted to its place. That comes to the numbers that are
-- written and read: the word never wraps around, it holds the sum of the groups that it took, and
-- a number that has no room in it is refused at its first byte.
import SamplingProfile.Proofs.Reading.Delimited

namespace SamplingProfile

namespace Leb128

/-! ## Writing a word -/

theorem toNat_shiftRight_seven (v : UInt64) : (v >>> 7).toNat = v.toNat / 128 :=
  Nat.shiftRight_eq_div_pow v.toNat 7

theorem shiftRight_seven_eq_zero_iff (v : UInt64) : v >>> 7 = 0 ↔ v.toNat < 128 := by
  rw [← UInt64.toNat_inj, toNat_shiftRight_seven]
  exact Nat.div_eq_zero_iff_lt (by decide)

/-- The bytes of a word, seven bits at a time. The top bit of a byte says that more follow. -/
def writeWord (v : UInt64) : List UInt8 :=
  if v >>> 7 = 0 then [v.toUInt8 &&& 0x7f]
  else (v.toUInt8 &&& 0x7f ||| 0x80) :: writeWord (v >>> 7)
termination_by v.toNat
decreasing_by
  rename_i h
  rw [shiftRight_seven_eq_zero_iff] at h
  rw [toNat_shiftRight_seven]
  omega

theorem toNat_and_low (b : UInt8) : (b &&& 0x7f).toNat = b.toNat % 128 := by
  rw [UInt8.toNat_and]
  exact Nat.and_two_pow_sub_one_eq_mod b.toNat 7

theorem toNat_or_top {b : UInt8} (h : b.toNat < 128) : (b ||| 0x80).toNat = b.toNat + 128 := by
  have hor : 2 ^ 7 * 1 + b.toNat = 2 ^ 7 * 1 ||| b.toNat := Nat.two_pow_add_eq_or_of_lt h 1
  rw [UInt8.toNat_or, Nat.or_comm]
  exact hor.symm.trans (Nat.add_comm _ _)

theorem toNat_low_of_word (v : UInt64) : (v.toUInt8 &&& 0x7f).toNat = v.toNat % 128 := by
  rw [toNat_and_low, UInt64.toNat_toUInt8]
  omega

/-- A word is written as the number that it holds. -/
theorem writeWord_eq (v : UInt64) : writeWord v = encode v.toNat := by
  induction v using writeWord.induct with
  | case1 v hlast =>
    have hlt := (shiftRight_seven_eq_zero_iff v).1 hlast
    rw [writeWord, if_pos hlast, encode_of_lt hlt]
    congr 1
    rw [← UInt8.toNat_inj, toNat_low_of_word, toNat_last hlt]
    omega
  | case2 v hmore ih =>
    have hge : 128 ≤ v.toNat := Nat.not_lt.1 fun h => hmore ((shiftRight_seven_eq_zero_iff v).2 h)
    rw [writeWord, if_neg hmore, encode_of_le hge, ih, toNat_shiftRight_seven]
    congr 1
    have hlow := toNat_low_of_word v
    rw [← UInt8.toNat_inj, toNat_or_top (by omega), hlow, toNat_more]

/-! ## Reading into a word -/

/-- What is told of a number that has no room in a word: whether some byte ends it. -/
def passOver : List UInt8 → Fault
  | [] => .truncated
  | b :: rest => if b &&& 0x80 = 0 then .oversized else passOver rest

/-- Reads groups into a word that holds the lowest `shift` bits of a number, and leaves what is
behind the number. The last group that has room in the word has one bit. -/
def readWord : (shift : Nat) → (word : UInt64) → List UInt8 → Except Fault (UInt64 × List UInt8)
  | _, _, [] => .error .truncated
  | shift, word, b :: rest =>
    if shift = 63 ∧ b ≠ 0 ∧ b ≠ 1 then .error (passOver (b :: rest))
    else if b &&& 0x80 = 0 then
      .ok (word ||| (b &&& 0x7f).toUInt64 <<< UInt64.ofNat shift, rest)
    else readWord (shift + 7) (word ||| (b &&& 0x7f).toUInt64 <<< UInt64.ofNat shift) rest

theorem and_top_eq_zero_iff (b : UInt8) : b &&& 0x80 = 0 ↔ b < 0x80 := by
  have hand : ∀ n < 2 ^ 8, n &&& 128 = 0 ↔ n < 128 := by decide +kernel
  rw [← UInt8.toNat_inj, UInt8.toNat_and, UInt8.lt_iff_toNat_lt]
  exact hand b.toNat b.toNat_lt

theorem passOver_eq (bytes : List UInt8) :
    passOver bytes = if (lastIndex? bytes).isSome then .oversized else .truncated := by
  induction bytes with
  | nil => rfl
  | cons b rest ih =>
    by_cases hb : b < 128
    · rw [passOver, if_pos ((and_top_eq_zero_iff b).2 hb), lastIndex?_cons_of_lt hb]
      rfl
    · rw [passOver, if_neg fun h => hb ((and_top_eq_zero_iff b).1 h), ih,
        lastIndex?_cons_of_not_lt hb, Option.isSome_map]

/-- A group is shifted behind the bits that the word holds, and the two together are their sum. -/
theorem toNat_or_shiftLeft {word group : UInt64} {shift : Nat} (hshift : shift < 64)
    (hword : word.toNat < 2 ^ shift) (hroom : group.toNat * 2 ^ shift < 2 ^ 64) :
    (word ||| group <<< UInt64.ofNat shift).toNat = word.toNat + 2 ^ shift * group.toNat := by
  have hamount : (UInt64.ofNat shift).toNat % 64 = shift := by
    rw [UInt64.toNat_ofNat']
    omega
  rw [UInt64.toNat_or, UInt64.toNat_shiftLeft, hamount, Nat.shiftLeft_eq, Nat.mod_eq_of_lt hroom,
    Nat.or_comm, Nat.mul_comm, ← Nat.two_pow_add_eq_or_of_lt hword, Nat.add_comm]

/-- A word that took some groups, none of which ends the number: it holds their sum, and the next
group belongs behind them. -/
structure Holds (seen : List UInt8) (shift : Nat) (word : UInt64) : Prop where
  more : ∀ b ∈ seen, ¬b < 128
  room : seen.length ≤ 9
  shift_eq : shift = 7 * seen.length
  word_eq : word.toNat = groupSum seen

theorem holds_nil : Holds [] 0 0 where
  more := by simp
  room := by simp
  shift_eq := rfl
  word_eq := rfl

section OneGroup

variable {seen : List UInt8} {shift : Nat} {word : UInt64} {b : UInt8}

theorem Holds.shift_lt (h : Holds seen shift word) : shift < 64 := by
  have := h.room
  rw [h.shift_eq]
  omega

theorem Holds.two_pow_eq (h : Holds seen shift word) : 2 ^ shift = 128 ^ seen.length := by
  rw [h.shift_eq, Nat.pow_mul]

theorem Holds.word_lt (h : Holds seen shift word) : word.toNat < 2 ^ shift := by
  rw [h.word_eq, h.two_pow_eq]
  exact groupSum_lt seen

/-- The tenth group has one bit of room, any other all of its seven. -/
theorem Holds.group_fits (h : Holds seen shift word) (hb : seen.length = 9 → b.toNat ≤ 1) :
    b.toNat % 128 * 2 ^ shift < 2 ^ 64 := by
  have hroom := h.room
  by_cases hnine : seen.length = 9
  · have hone := hb hnine
    rw [h.shift_eq, hnine]
    omega
  · have hshift : shift ≤ 56 := by
      rw [h.shift_eq]
      omega
    have hpow : 2 ^ shift ≤ 2 ^ 56 := Nat.pow_le_pow_right (by decide) hshift
    calc b.toNat % 128 * 2 ^ shift
      _ ≤ 127 * 2 ^ 56 := Nat.mul_le_mul (by omega) hpow
      _ < 2 ^ 64 := by decide

/-- One group more is added in its place. -/
theorem Holds.toNat_or (h : Holds seen shift word) (hb : seen.length = 9 → b.toNat ≤ 1) :
    (word ||| (b &&& 0x7f).toUInt64 <<< UInt64.ofNat shift).toNat = groupSum (seen ++ [b]) := by
  have hgroup : (b &&& 0x7f).toUInt64.toNat = b.toNat % 128 := by
    rw [UInt8.toNat_toUInt64, toNat_and_low]
  have hfits := h.group_fits hb
  rw [← hgroup] at hfits
  rw [toNat_or_shiftLeft h.shift_lt h.word_lt hfits, hgroup, groupSum_append_singleton, h.word_eq,
    h.two_pow_eq]

/-- A group that does not end the number leaves room for the next. -/
theorem Holds.step (h : Holds seen shift word) (hne : seen.length ≠ 9) (hb : ¬b < 128) :
    Holds (seen ++ [b]) (shift + 7) (word ||| (b &&& 0x7f).toUInt64 <<< UInt64.ofNat shift) where
  more := by
    intro c hc
    rcases List.mem_append.1 hc with hc | hc
    · exact h.more c hc
    · rwa [List.mem_singleton.1 hc]
  room := by
    have := h.room
    rw [List.length_append, List.length_singleton]
    omega
  shift_eq := by
    rw [h.shift_eq, List.length_append, List.length_singleton, Nat.mul_add]
  word_eq := h.toNat_or fun hnine => absurd hnine hne

/-- The tenth group is the only one that may have no room. -/
theorem Holds.full_iff (h : Holds seen shift word) :
    shift = 63 ∧ b ≠ 0 ∧ b ≠ 1 ↔ seen.length = 9 ∧ 1 < b.toNat := by
  have hshift := h.shift_eq
  have hzero : b = 0 ↔ b.toNat = 0 := UInt8.toNat_inj.symm
  have hone : b = 1 ↔ b.toNat = 1 := UInt8.toNat_inj.symm
  rw [ne_eq, hzero, ne_eq, hone]
  omega

/-- With a group that ends the number the sum is complete. -/
theorem Holds.decode_of_lt (h : Holds seen shift word) (hb : b < 128) (rest : List UInt8) :
    decode (seen ++ b :: rest) = if groupSum (seen ++ [b]) < 2 ^ 64 then
        .ok (groupSum (seen ++ [b]), seen.length + 1)
      else .error .oversized := by
  have hindex : lastIndex? (seen ++ b :: rest) = some seen.length := by
    rw [lastIndex?_append h.more, lastIndex?_cons_of_lt hb, Option.map_some, Nat.zero_add]
  have htake : (seen ++ b :: rest).take (seen.length + 1) = seen ++ [b] :=
    List.take_length_add_append 1
  rw [decode_of_some hindex, htake]
  simp only [h.room, true_and]

/-- A tenth group of more than one bit leaves no number to read. -/
theorem Holds.decode_of_full (h : Holds seen shift word) (hnine : seen.length = 9)
    (hone : 1 < b.toNat) (rest : List UInt8) :
    decode (seen ++ b :: rest) = .error (passOver (b :: rest)) := by
  rw [passOver_eq]
  by_cases hb : b < 128
  · have hlow : b.toNat % 128 = b.toNat := Nat.mod_eq_of_lt (UInt8.lt_iff_toNat_lt.1 hb)
    have hsum := groupSum_append_singleton seen b
    rw [hnine, hlow] at hsum
    rw [h.decode_of_lt hb, lastIndex?_cons_of_lt hb, if_neg (by omega)]
    rfl
  · have hindex := lastIndex?_append h.more (b :: rest)
    rw [lastIndex?_cons_of_not_lt hb] at hindex ⊢
    cases hk : lastIndex? rest with
    | none =>
      rw [hk] at hindex
      exact decode_of_none hindex
    | some k =>
      rw [hk, Option.map_some, Option.map_some] at hindex
      rw [decode_of_some hindex, if_neg fun hfit => Nat.not_lt.2 hfit.1 (by omega)]
      rfl

end OneGroup

/-- A word takes the groups of a number as the number is read, whatever groups it holds before. -/
theorem readWord_eq {seen : List UInt8} {shift : Nat} {word : UInt64}
    (h : Holds seen shift word) (bytes : List UInt8) :
    ((readWord shift word bytes).map fun r => (r.1.toNat, r.2))
      = (decode (seen ++ bytes)).map fun r => (r.1, (seen ++ bytes).drop r.2) := by
  induction bytes generalizing seen shift word with
  | nil =>
    have hnone := lastIndex?_append h.more []
    rw [decode_of_none hnone]
    rfl
  | cons b rest ih =>
    by_cases hfull : seen.length = 9 ∧ 1 < b.toNat
    · rw [readWord, if_pos (h.full_iff.2 hfull), h.decode_of_full hfull.1 hfull.2]
      rfl
    · rw [readWord, if_neg fun hf => hfull (h.full_iff.1 hf)]
      by_cases hb : b < 128
      · have hone : seen.length = 9 → b.toNat ≤ 1 := fun hnine =>
          Nat.not_lt.1 fun hgt => hfull ⟨hnine, hgt⟩
        have hword := h.toNat_or hone
        have hfits : groupSum (seen ++ [b]) < 2 ^ 64 := hword ▸ UInt64.toNat_lt _
        rw [if_pos ((and_top_eq_zero_iff b).2 hb), h.decode_of_lt hb, if_pos hfits, Except.map,
          Except.map, hword, List.drop_length_add_append]
        rfl
      · have hne : seen.length ≠ 9 := fun hnine => by
          have := not_lt_iff_le_toNat.1 hb
          exact hfull ⟨hnine, by omega⟩
        have hrest := ih (h.step hne hb)
        rw [if_neg fun htop => hb ((and_top_eq_zero_iff b).1 htop), hrest, List.append_assoc]
        rfl

end Leb128

/-! ## Exact numbers -/

namespace Reader

open Leb128

theorem leb128_of_none {span : Span} (h : lastIndex? span.bytes = none) :
    leb128 span = .error { problem := .truncatedNumber, offset := span.start } := by
  rw [leb128, decode_of_none h]
  rfl

theorem leb128_of_some {span : Span} {k : Nat} (h : lastIndex? span.bytes = some k) :
    leb128 span = if k ≤ 9 ∧ groupSum (span.bytes.take (k + 1)) < 2 ^ 64 then
        .ok (groupSum (span.bytes.take (k + 1)), span.drop (k + 1))
      else .error { problem := .oversizedNumber, offset := span.start } := by
  rw [leb128, decode_of_some h]
  by_cases hfit : k ≤ 9 ∧ groupSum (span.bytes.take (k + 1)) < 2 ^ 64
  · rw [if_pos hfit, if_pos hfit]
  · rw [if_neg hfit, if_neg hfit]
    rfl

/-- A number reads back from the bytes of the word that holds it, whatever follows them. Of any
bytes, what is read is the exact sum of the groups up to the first byte that ends a number, if it
has room in 64 bits and ten groups; it may have been written with more bytes than it needs. Else the
number is refused where it begins. A word that takes the groups one by one holds the same sum. -/
theorem numbers_are_exact :
    (∀ (v : UInt64) (start : Nat) (back : List UInt8),
      writeWord v = encode v.toNat ∧
      leb128 ⟨start, encode v.toNat ++ back⟩
        = .ok (v.toNat, ⟨start + (encode v.toNat).length, back⟩)) ∧
    ∀ span : Span,
      ((readWord 0 0 span.bytes).map fun r => (r.1.toNat, r.2))
        = ((decode span.bytes).map fun r => (r.1, span.bytes.drop r.2)) ∧
      match lastIndex? span.bytes with
      | none => ∃ e, leb128 span = .error e ∧
          e.steps = [("Eof", span.start), ("truncated leb128", span.start)]
      | some k =>
        if k ≤ 9 ∧ groupSum (span.bytes.take (k + 1)) < 2 ^ 64 then
          leb128 span = .ok (groupSum (span.bytes.take (k + 1)), span.drop (k + 1)) ∧
            (encode (groupSum (span.bytes.take (k + 1)))).length ≤ k + 1
        else ∃ e, leb128 span = .error e ∧
          e.steps = [("TooLarge", span.start), ("leb128 overflow", span.start)] := by
  refine ⟨fun v start back => ⟨writeWord_eq v, ?_⟩, fun span => ⟨readWord_eq holds_nil _, ?_⟩⟩
  · rw [leb128_of_ok (decode_encode v.toNat_lt back), Span.drop, List.drop_left]
  · cases hk : lastIndex? span.bytes with
    | none => exact ⟨_, leb128_of_none hk, rfl⟩
    | some k =>
      dsimp only
      split
      · rename_i hfit
        exact ⟨(leb128_of_some hk).trans (if_pos hfit), length_encode_le (groupSum_take_lt _ _)⟩
      · rename_i hfit
        exact ⟨_, (leb128_of_some hk).trans (if_neg hfit), rfl⟩

/-- Zero may take ten bytes, of which nine are groups without a bit. -/
example : leb128 ⟨0, List.replicate 9 0x80 ++ [0, 7]⟩ = .ok (0, ⟨10, [7]⟩) := by decide

end Reader

end SamplingProfile
