-- SUMMARY: Texts as UTF-8 bytes and back.

/-!
# UTF-8

Texts are kept as bytes in UTF-8. Main statement: a list of bytes is read as a text exactly if it is
what the text is written as.
-/

namespace Bytecode.Text

/-- The bytes of a text. -/
def utf8 (s : String) : List UInt8 := s.toUTF8.data.toList

/-- The text that bytes spell, if they spell one. -/
def ofUtf8? (bytes : List UInt8) : Option String := String.fromUTF8? bytes.toByteArray

theorem toByteArray_utf8 (s : String) : (utf8 s).toByteArray = s.toUTF8 := by
  apply ByteArray.ext
  simp [utf8]

theorem ofUtf8?_utf8 (s : String) : ofUtf8? (utf8 s) = some s := by
  have h : s.toUTF8.IsValidUTF8 := s.isValidUTF8
  unfold ofUtf8?
  rw [toByteArray_utf8, String.fromUTF8?, dif_pos h]
  rfl

theorem ofUtf8?_eq_some_iff {bytes : List UInt8} {s : String} :
    ofUtf8? bytes = some s ↔ bytes = utf8 s := by
  constructor
  · intro h
    unfold ofUtf8? String.fromUTF8? at h
    split at h
    · cases h
      simp [utf8, String.fromUTF8]
    · cases h
  · rintro rfl
    exact ofUtf8?_utf8 s

end Bytecode.Text
