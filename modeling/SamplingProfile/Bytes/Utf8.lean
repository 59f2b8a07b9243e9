-- Texts as bytes: a text has one UTF-8 form, and only such a form reads as a text.

namespace SamplingProfile

/-- The UTF-8 form of a text. -/
def encodeText (s : String) : List UInt8 := s.toUTF8.data.toList

/-- The text that some bytes are the UTF-8 form of. -/
def decodeText? (bytes : List UInt8) : Option String := String.fromUTF8? ⟨bytes.toArray⟩

@[simp] theorem decodeText?_encodeText (s : String) : decodeText? (encodeText s) = some s := by
  have h : (⟨(encodeText s).toArray⟩ : ByteArray) = s.toUTF8 := by
    simp [encodeText]
  simp only [decodeText?, h, String.fromUTF8?]
  exact dif_pos s.isValidUTF8

theorem encodeText_of_decodeText? {bytes : List UInt8} {s : String}
    (h : decodeText? bytes = some s) : encodeText s = bytes := by
  simp only [decodeText?, String.fromUTF8?] at h
  split at h
  · simp only [Option.some.injEq] at h
    subst h
    simp [encodeText, String.fromUTF8]
  · simp at h

end SamplingProfile
