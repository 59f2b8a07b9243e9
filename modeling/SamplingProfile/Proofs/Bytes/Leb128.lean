-- The laws of numbers in groups of seven bits. The first byte whose top bit is not set ends a
-- number, and what is read is the exact sum of the groups up to there. A sum of more than 64 bits
-- is refused, and so are more than ten groups. All else follows: a number of at most 64 bits reads
-- back from its bytes, whatever follows them, and bytes that were read as a number say themselves
-- where it ends. What follows them plays no part, and without the last of them no number is there.
import Mathlib.Data.Nat.Digits.Defs
import SamplingProfile.Bytes.Leb128

namespace SamplingProfile.Leb128

/-! ## Groups -/

/-- The index of the byte that ends a number: the first one below 0x80. -/
def lastIndex? (bytes : List UInt8) : Option Nat := bytes.findIdx? (· < 0x80)

/-- The sum of the groups of seven bits, the lowest first, each times its power of 128. -/
def groupSum (bytes : List UInt8) : Nat := Nat.ofDigits 128 (bytes.map fun b => b.toNat % 128)

theorem lastIndex?_cons_of_lt {b : UInt8} (hb : b < 128) (rest : List UInt8) :
    lastIndex? (b :: rest) = some 0 := by
  rw [lastIndex?, List.findIdx?_cons, if_pos (decide_eq_true hb)]

theorem lastIndex?_cons_of_not_lt {b : UInt8} (hb : ¬b < 128) (rest : List UInt8) :
    lastIndex? (b :: rest) = (lastIndex? rest).map (· + 1) := by
  rw [lastIndex?, List.findIdx?_cons, if_neg (by simpa using hb)]
  rfl

/-- The byte that ends a number is there as soon as enough bytes are. -/
theorem lastIndex?_take {k : Nat} {bytes : List UInt8} (h : lastIndex? bytes = some k) (m : Nat) :
    lastIndex? (bytes.take m) = if k < m then some k else none := by
  rw [lastIndex?, List.findIdx?_take, ← lastIndex?, h, Option.bind_some, Option.guard]
  simp only [decide_eq_true_eq]

theorem lastIndex?_append {front : List UInt8} (h : ∀ b ∈ front, ¬b < 128) (back : List UInt8) :
    lastIndex? (front ++ back) = (lastIndex? back).map (· + front.length) := by
  have hnone : front.findIdx? (· < 0x80) = none :=
    List.findIdx?_eq_none_iff.2 fun b hb => decide_eq_false (h b hb)
  rw [lastIndex?, List.findIdx?_append, hnone, Option.none_or]
  rfl

theorem any_lt_eq (bytes : List UInt8) : bytes.any (· < 128) = (lastIndex? bytes).isSome :=
  List.findIdx?_isSome.symm

theorem groupSum_nil : groupSum [] = 0 := rfl

theorem groupSum_cons (b : UInt8) (rest : List UInt8) :
    groupSum (b :: rest) = b.toNat % 128 + 128 * groupSum rest := Nat.ofDigits_cons

theorem groupSum_append_singleton (front : List UInt8) (b : UInt8) :
    groupSum (front ++ [b]) = groupSum front + 128 ^ front.length * (b.toNat % 128) := by
  rw [groupSum, List.map_append, Nat.ofDigits_append, List.length_map, List.map_singleton,
    Nat.ofDigits_singleton]
  rfl

theorem groupSum_lt (bytes : List UInt8) : groupSum bytes < 128 ^ bytes.length := by
  have hdigits : ∀ d ∈ bytes.map fun b => b.toNat % 128, d < 128 := by
    simp only [List.mem_map, forall_exists_index, and_imp, forall_apply_eq_imp_iff₂]
    exact fun b _ => Nat.mod_lt _ (by decide)
  have hlt := Nat.ofDigits_lt_base_pow_length (by decide) hdigits
  rwa [List.length_map] at hlt

theorem groupSum_take_lt (n : Nat) (bytes : List UInt8) : groupSum (bytes.take n) < 128 ^ n :=
  Nat.lt_of_lt_of_le (groupSum_lt _)
    (Nat.pow_le_pow_right (by decide) (List.length_take_le n bytes))

theorem not_lt_iff_le_toNat {b : UInt8} : ¬b < 128 ↔ 128 ≤ b.toNat := by
  rw [UInt8.lt_iff_toNat_lt]
  exact Nat.not_lt

/-- A group takes seven bits of the room. -/
theorem room_eq {index : Nat} (h : index < 9) :
    2 ^ (64 - 7 * index) = 2 ^ (64 - 7 * (index + 1)) * 128 := by
  rw [show 64 - 7 * index = 64 - 7 * (index + 1) + 7 by omega, Nat.pow_add]

/-! ## What is read -/

theorem decodeFrom_more {index : Nat} {b : UInt8} (hi : index ≠ 9) (hb : ¬b < 128)
    (rest : List UInt8) :
    decodeFrom index (b :: rest) = (decodeFrom (index + 1) rest).map fun r =>
      (b.toNat - 128 + 128 * r.1, r.2) := by
  rw [decodeFrom, if_neg hi, if_neg hb]
  cases decodeFrom (index + 1) rest <;> rfl

/-- The tenth group has one bit. If it has more, all that is left to tell is whether some byte ends
the number. -/
theorem decodeFrom_nine {b : UInt8} (hb : 1 < b.toNat) (rest : List UInt8) :
    decodeFrom 9 (b :: rest)
      = .error (if (lastIndex? (b :: rest)).isSome then .oversized else .truncated) := by
  have hgt : ¬b ≤ 1 := fun h => Nat.not_lt.2 (UInt8.le_iff_toNat_le.1 h) hb
  rw [decodeFrom, if_pos rfl, if_neg hgt, any_lt_eq]
  split <;> rfl

/-- Without a byte that ends it, no number is there. -/
theorem decodeFrom_of_none {bytes : List UInt8} (index : Nat) (h : lastIndex? bytes = none) :
    decodeFrom index bytes = .error .truncated := by
  induction bytes generalizing index with
  | nil => rfl
  | cons b rest ih =>
    have hb : ¬b < 128 := fun hlt => by
      rw [lastIndex?_cons_of_lt hlt] at h
      cases h
    have hge := not_lt_iff_le_toNat.1 hb
    by_cases hi : index = 9
    · subst hi
      rw [decodeFrom_nine (by omega), h]
      rfl
    · rw [lastIndex?_cons_of_not_lt hb, Option.map_eq_none_iff] at h
      rw [decodeFrom_more hi hb, ih (index + 1) h]
      rfl

/-- A byte that ends the number is taken if there is room for it. -/
theorem decodeFrom_last {index : Nat} {b : UInt8} (hi : index ≤ 9) (hb : b < 128)
    (rest : List UInt8) :
    decodeFrom index (b :: rest) = if b.toNat < 2 ^ (64 - 7 * index) then .ok (b.toNat, index + 1)
      else .error .oversized := by
  have hlt : b.toNat < 128 := UInt8.lt_iff_toNat_lt.1 hb
  by_cases hnine : index = 9
  · subst hnine
    by_cases hone : b.toNat ≤ 1
    · rw [if_pos (by omega), decodeFrom, if_pos rfl, if_pos (UInt8.le_iff_toNat_le.2 hone)]
    · rw [if_neg (by omega), decodeFrom_nine (by omega), lastIndex?_cons_of_lt hb]
      rfl
  · have hroom : 2 ^ 7 ≤ 2 ^ (64 - 7 * index) := Nat.pow_le_pow_right (by decide) (by omega)
    rw [if_pos (by omega), decodeFrom, if_neg hnine, if_pos hb]

/-- The groups up to the byte that ends the number are summed up. From the group of index `index`
on there is room for `64 - 7 * index` bits. -/
theorem decodeFrom_of_some {index k : Nat} {bytes : List UInt8} (hi : index ≤ 9)
    (h : lastIndex? bytes = some k) :
    decodeFrom index bytes
      = if index + k ≤ 9 ∧ groupSum (bytes.take (k + 1)) < 2 ^ (64 - 7 * index) then
          .ok (groupSum (bytes.take (k + 1)), index + (k + 1))
        else .error .oversized := by
  induction bytes generalizing index k with
  | nil => cases h
  | cons b rest ih =>
    rw [List.take_succ_cons, groupSum_cons]
    by_cases hb : b < 128
    · have hlow : b.toNat % 128 = b.toNat := Nat.mod_eq_of_lt (UInt8.lt_iff_toNat_lt.1 hb)
      rw [lastIndex?_cons_of_lt hb] at h
      cases h
      rw [decodeFrom_last hi hb, List.take_zero, groupSum_nil, hlow]
      simp only [Nat.add_zero, Nat.mul_zero, hi, true_and]
    · have hge := not_lt_iff_le_toNat.1 hb
      have hlow : b.toNat % 128 = b.toNat - 128 := by
        have := b.toNat_lt
        omega
      have hlast := h
      rw [lastIndex?_cons_of_not_lt hb, Option.map_eq_some_iff] at h
      obtain ⟨k, hrest, rfl⟩ := h
      by_cases hnine : index = 9
      · subst hnine
        rw [decodeFrom_nine (by omega), hlast, Option.isSome_some, if_pos rfl, if_neg (by omega)]
      · have hroom := room_eq (show index < 9 by omega)
        rw [decodeFrom_more hnine hb, ih (by omega) hrest, hlow]
        by_cases hfit : index + 1 + k ≤ 9 ∧
            groupSum (rest.take (k + 1)) < 2 ^ (64 - 7 * (index + 1))
        · rw [if_pos hfit, if_pos ⟨by omega, by omega⟩, Except.map]
          congr 2
          omega
        · rw [if_neg hfit, if_neg fun h => hfit ⟨by omega, by omega⟩]
          rfl

theorem decode_of_none {bytes : List UInt8} (h : lastIndex? bytes = none) :
    decode bytes = .error .truncated := decodeFrom_of_none 0 h

/-- What is read is the exact sum of the groups, if it has at most 64 bits in ten groups. -/
theorem decode_of_some {k : Nat} {bytes : List UInt8} (h : lastIndex? bytes = some k) :
    decode bytes = if k ≤ 9 ∧ groupSum (bytes.take (k + 1)) < 2 ^ 64 then
        .ok (groupSum (bytes.take (k + 1)), k + 1)
      else .error .oversized := by
  rw [decode, decodeFrom_of_some (Nat.zero_le 9) h]
  simp only [Nat.zero_add, Nat.mul_zero, Nat.sub_zero]

/-! ## Writing -/

theorem encode_of_lt {n : Nat} (h : n < 128) : encode n = [UInt8.ofNat n] := by
  rw [encode, if_pos h]

theorem encode_of_le {n : Nat} (h : 128 ≤ n) :
    encode n = UInt8.ofNat (n % 128 + 128) :: encode (n / 128) := by
  rw [encode, if_neg (Nat.not_lt.2 h)]

theorem encode_ne_nil (n : Nat) : encode n ≠ [] := by
  rw [encode]
  split <;> simp

theorem toNat_last {n : Nat} (h : n < 128) : (UInt8.ofNat n).toNat = n := by
  rw [UInt8.toNat_ofNat']
  omega

theorem toNat_more (n : Nat) : (UInt8.ofNat (n % 128 + 128)).toNat = n % 128 + 128 := by
  rw [UInt8.toNat_ofNat']
  omega

/-- The groups that are written sum up to the number. -/
theorem groupSum_encode (n : Nat) : groupSum (encode n) = n := by
  induction n using Nat.strongRecOn with
  | ind n ih =>
    by_cases hlt : n < 128
    · rw [encode_of_lt hlt, groupSum_cons, groupSum_nil, toNat_last hlt]
      omega
    · rw [encode_of_le (Nat.not_lt.1 hlt), groupSum_cons, toNat_more, ih (n / 128) (by omega)]
      omega

/-- The last byte that is written is the first that ends a number. -/
theorem lastIndex?_encode_append (n : Nat) (back : List UInt8) :
    lastIndex? (encode n ++ back) = some ((encode n).length - 1) := by
  induction n using Nat.strongRecOn with
  | ind n ih =>
    by_cases hlt : n < 128
    · have hb : UInt8.ofNat n < 128 := UInt8.lt_iff_toNat_lt.2 (by rwa [toNat_last hlt])
      rw [encode_of_lt hlt, List.singleton_append, lastIndex?_cons_of_lt hb]
      rfl
    · have hb : ¬UInt8.ofNat (n % 128 + 128) < 128 := by
        rw [not_lt_iff_le_toNat, toNat_more]
        omega
      have hpos := List.length_pos_iff.2 (encode_ne_nil (n / 128))
      rw [encode_of_le (Nat.not_lt.1 hlt), List.cons_append, lastIndex?_cons_of_not_lt hb,
        ih (n / 128) (by omega), Option.map_some, List.length_cons]
      congr 1
      omega

/-- A number of few bits is written in few bytes. -/
theorem length_encode_le {n m : Nat} (h : n < 128 ^ (m + 1)) : (encode n).length ≤ m + 1 := by
  induction m generalizing n with
  | zero => rw [encode_of_lt (by omega), List.length_singleton]
  | succ m ih =>
    by_cases hlt : n < 128
    · rw [encode_of_lt hlt, List.length_singleton]
      exact Nat.le_add_left 1 _
    · have hhigh : n / 128 < 128 ^ (m + 1) := by
        rw [Nat.pow_succ] at h
        omega
      rw [encode_of_le (Nat.not_lt.1 hlt), List.length_cons]
      exact Nat.succ_le_succ (ih hhigh)

/-! ## Reading back -/

theorem decode_encode_append (n : Nat) (back : List UInt8) :
    decode (encode n ++ back) = if (encode n).length ≤ 10 ∧ n < 2 ^ 64 then
        .ok (n, (encode n).length)
      else .error .oversized := by
  have hpos := List.length_pos_iff.2 (encode_ne_nil n)
  have hlength : (encode n).length - 1 + 1 = (encode n).length := Nat.sub_add_cancel hpos
  rw [decode_of_some (lastIndex?_encode_append n back), hlength, List.take_left, groupSum_encode]
  simp only [Nat.sub_le_iff_le_add]

/-- A number of at most 64 bits reads back from its bytes. -/
theorem decode_encode {n : Nat} (hn : n < UInt64.size) (back : List UInt8) :
    decode (encode n ++ back) = .ok (n, (encode n).length) := by
  have hpow : UInt64.size ≤ 128 ^ (9 + 1) := by decide
  rw [decode_encode_append, if_pos ⟨length_encode_le (Nat.lt_of_lt_of_le hn hpow), hn⟩]

/-- A number of more than 64 bits is not read. -/
theorem decode_encode_of_le {n : Nat} (hn : UInt64.size ≤ n) (back : List UInt8) :
    decode (encode n ++ back) = .error .oversized := by
  rw [decode_encode_append, if_neg fun h => Nat.not_lt.2 hn h.2]

/-! ## Where a number ends -/

/-- The bytes that were read settle the number, and any fewer of them are cut off. -/
theorem decode_eq_ok {bytes : List UInt8} {n used : Nat} (h : decode bytes = .ok (n, used)) :
    ∃ taken back, bytes = taken ++ back ∧ used = taken.length ∧ taken ≠ [] ∧
      (∀ back', decode (taken ++ back') = .ok (n, used)) ∧
      ∀ front missing, taken = front ++ missing → missing ≠ [] →
        decode front = .error .truncated := by
  cases hk : lastIndex? bytes with
  | none =>
    rw [decode_of_none hk] at h
    cases h
  | some k =>
    obtain ⟨hlt, -⟩ := List.findIdx?_eq_some_iff_getElem.1 hk
    have hlength : (bytes.take (k + 1)).length = k + 1 := by
      rw [List.length_take]
      omega
    rw [decode_of_some hk] at h
    split at h
    · rename_i hfit
      cases h
      refine ⟨bytes.take (k + 1), bytes.drop (k + 1), (List.take_append_drop _ _).symm,
        hlength.symm, List.ne_nil_of_length_pos (by omega), fun back' => ?_,
        fun front missing hs hm => decode_of_none ?_⟩
      · have hall : lastIndex? (bytes.take (k + 1) ++ back') = some k := by
          rw [lastIndex?, List.findIdx?_append, ← lastIndex?, lastIndex?_take hk,
            if_pos (Nat.lt_succ_self k), Option.some_or]
        rw [decode_of_some hall, List.take_left' hlength, if_pos hfit]
      · have hshort : front.length < k + 1 := by
          have := List.length_pos_iff.2 hm
          rw [hs, List.length_append] at hlength
          omega
        have hfront : front = bytes.take front.length := by
          have := congrArg (List.take front.length) hs
          rwa [List.take_left, List.take_take, Nat.min_eq_left (by omega), eq_comm] at this
        rw [hfront, lastIndex?_take hk, if_neg (by omega)]
    · cases h

end SamplingProfile.Leb128
