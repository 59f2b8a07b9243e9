-- The bytes of texts: the text of two texts, and which bytes there are none of. So bytes that are
-- put together from texts are a text, and never begin as a binary profile does. Texts come in the
-- order of their bytes.
import Mathlib.Tactic.SplitIfs
import SamplingProfile.Bytes.Utf8
import SamplingProfile.Binary.Layout

namespace SamplingProfile

/-- The bytes of a text are those of its characters. -/
theorem encodeText_eq_flatMap (s : String) :
    encodeText s = s.toList.flatMap String.utf8EncodeChar := by
  have h : s.toUTF8 = s.toList.utf8Encode := by
    rw [String.toUTF8_eq_toByteArray, ← String.toByteArray_ofList, String.ofList_toList]
  rw [encodeText, h, List.utf8Encode]
  simp

/-- No byte of a character begins with five ones. -/
theorem lt_of_mem_utf8EncodeChar {c : Char} {b : UInt8} (h : b ∈ String.utf8EncodeChar c) :
    b.toNat < 0xf8 := by
  unfold String.utf8EncodeChar at h
  dsimp only at h
  repeat' split at h
  all_goals
    simp only [List.mem_cons, List.not_mem_nil, or_false] at h
    rcases h with rfl | rfl | rfl | rfl
  all_goals
    rw [UInt8.toNat_ofNat']
    omega

/-- Bytes of a text are not those of a binary profile. -/
theorem hasMagic_encodeText (s : String) : Binary.hasMagic (encodeText s) = false := by
  rw [Binary.hasMagic, decide_eq_false_iff_not]
  intro h
  have hmem : 0xff ∈ encodeText s := by
    apply List.mem_of_mem_take (i := 8)
    rw [h]
    exact List.mem_cons_self
  rw [encodeText_eq_flatMap, List.mem_flatMap] at hmem
  obtain ⟨c, -, hc⟩ := hmem
  have hlt := lt_of_mem_utf8EncodeChar hc
  cases Nat.not_le_of_lt hlt (by decide)

/-- Whether bytes are those of a text. -/
def IsText (bytes : List UInt8) : Prop := ∃ s, bytes = encodeText s

theorem isText_encodeText (s : String) : IsText (encodeText s) := ⟨s, rfl⟩

/-- Bytes of ASCII are a text. -/
theorem isText_of_ascii {bytes : List UInt8} (h : ∀ b ∈ bytes, b.toNat < 0x80) :
    IsText bytes := by
  have hchar : ∀ n < 0x80, String.utf8EncodeChar (Char.ofNat n) = [UInt8.ofNat n] := by
    decide +kernel
  refine ⟨String.ofList (bytes.map fun b => Char.ofNat b.toNat), ?_⟩
  rw [encodeText_eq_flatMap, String.toList_ofList, List.flatMap_map]
  induction bytes with
  | nil => rfl
  | cons b bytes ih =>
    rw [List.flatMap_cons, ← ih fun b' hb' => h b' (List.mem_cons_of_mem b hb'),
      hchar b.toNat (h b List.mem_cons_self), UInt8.ofNat_toNat]
    rfl

theorem IsText.append {front back : List UInt8} (h : IsText front) (h' : IsText back) :
    IsText (front ++ back) := by
  obtain ⟨s, rfl⟩ := h
  obtain ⟨t, rfl⟩ := h'
  refine ⟨s ++ t, ?_⟩
  simp [encodeText]

theorem isText_flatMap {α : Type} {xs : List α} {f : α → List UInt8} (h : ∀ x ∈ xs, IsText (f x)) :
    IsText (xs.flatMap f) := by
  induction xs with
  | nil => exact ⟨"", rfl⟩
  | cons x xs ih =>
    rw [List.flatMap_cons]
    exact (h x List.mem_cons_self).append (ih fun y hy => h y (List.mem_cons_of_mem x hy))

/-! ## The order of bytes -/

/-- The bytes of two characters come in the order of the characters, whatever is behind them. -/
theorem utf8EncodeChar_append_lt {c d : Char} (h : c < d) (back back' : List UInt8) :
    String.utf8EncodeChar c ++ back < String.utf8EncodeChar d ++ back' := by
  have hcd : c.val.toNat < d.val.toNat := h
  have hd : d.val.toNat < 0x110000 := by
    rcases d.valid with h | h <;> omega
  unfold String.utf8EncodeChar
  generalize c.val.toNat = m at hcd
  generalize d.val.toNat = n at hcd hd
  dsimp only
  -- The first byte tells how many there are. If it is the same for both, so is their number, and
  -- the bytes are digits to the base 64.
  split_ifs <;>
    simp (disch := omega) only [List.cons_append, List.nil_append, List.cons_lt_cons_iff,
      UInt8.lt_iff_toNat_lt, ← UInt8.toNat_inj, UInt8.toNat_ofNat', Nat.mod_eq_of_lt] <;>
    omega

theorem flatMap_utf8EncodeChar_lt {cs ds : List Char} (h : cs < ds) :
    cs.flatMap String.utf8EncodeChar < ds.flatMap String.utf8EncodeChar := by
  induction h with
  | nil =>
    rename_i d ds
    obtain ⟨b, bs, hd⟩ := List.exists_cons_of_ne_nil (@String.utf8EncodeChar_ne_nil d)
    rw [List.flatMap_cons, hd]
    exact List.nil_lt_cons b _
  | rel h => exact utf8EncodeChar_append_lt h _ _
  | cons h ih => exact List.append_left_lt ih

/-- Of two texts the one that comes first has the bytes that come first. -/
theorem encodeText_lt {s t : String} (h : s < t) : encodeText s < encodeText t := by
  rw [encodeText_eq_flatMap, encodeText_eq_flatMap]
  exact flatMap_utf8EncodeChar_lt (String.lt_iff.1 h)

end SamplingProfile
