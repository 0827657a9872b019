/-! # Text as bytes

    A text and its UTF-8 bytes.  Every text is spelled by its bytes
    (`utf8Text?_utf8Bytes`). -/

namespace SequentCalculus

/-- The UTF-8 bytes of a text. -/
def utf8Bytes (s : String) : List UInt8 := s.toUTF8.data.toList

/-- The text that bytes spell in UTF-8, if they are valid. -/
def utf8Text? (bs : List UInt8) : Option String := String.fromUTF8? ⟨bs.toArray⟩

/-- The bytes of a text spell it. -/
theorem utf8Text?_utf8Bytes (s : String) : utf8Text? (utf8Bytes s) = some s := by
  have h : (⟨(utf8Bytes s).toArray⟩ : ByteArray) = s.toUTF8 := by
    simp [utf8Bytes]
  have hv : s.toUTF8.IsValidUTF8 := s.isValidUTF8
  rw [utf8Text?, h, String.fromUTF8?, dif_pos hv]
  rfl

end SequentCalculus
