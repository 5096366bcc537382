import IppCode.Text

namespace IppCode

/-- What is read from a source and written to a sink. -/
abbrev Bytes := List UInt8

def toUtf8 (text : Text) : Bytes := text.flatMap String.utf8EncodeChar

/-- The text that strictly valid UTF-8 bytes carry. -/
def ofUtf8? (bytes : Bytes) : Option Text :=
  (String.fromUTF8? bytes.toByteArray).map String.toList

@[simp] theorem toUtf8_nil : toUtf8 [] = [] := rfl

@[simp] theorem toUtf8_append (s t : Text) : toUtf8 (s ++ t) = toUtf8 s ++ toUtf8 t :=
  List.flatMap_append

theorem toByteArray_toUtf8 (text : Text) : (toUtf8 text).toByteArray = text.utf8Encode := rfl

theorem ofUtf8?_toUtf8 (text : Text) : ofUtf8? (toUtf8 text) = some text := by
  have valid : (toUtf8 text).toByteArray.IsValidUTF8 := .intro text (toByteArray_toUtf8 text)
  have decoded : String.fromUTF8 (toUtf8 text).toByteArray valid = String.ofList text := by
    rw [← String.toByteArray_inj, String.toByteArray_ofList, ← toByteArray_toUtf8]
    rfl
  simp [ofUtf8?, String.fromUTF8?, valid, decoded]

/-- Decoding succeeds exactly on encoded text and gives that text back. -/
theorem ofUtf8?_eq_some_iff {bytes : Bytes} {text : Text} :
    ofUtf8? bytes = some text ↔ bytes = toUtf8 text := by
  refine ⟨fun h => ?_, fun h => h ▸ ofUtf8?_toUtf8 text⟩
  by_cases valid : bytes.toByteArray.IsValidUTF8
  · obtain ⟨m, hm⟩ := valid
    have hbytes : bytes = toUtf8 m := by
      rw [← List.toList_data_toByteArray (l := bytes), hm, ← toByteArray_toUtf8,
        List.toList_data_toByteArray]
    rw [hbytes, ofUtf8?_toUtf8] at h
    rw [hbytes, Option.some.inj h]
  · simp [ofUtf8?, String.fromUTF8?, valid] at h

end IppCode
