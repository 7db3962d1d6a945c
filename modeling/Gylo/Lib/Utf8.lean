import Gylo.Lib.Unpacking

/-! # Cutting a text at a byte

An offset in bytes may fall inside a character of a text. What is before it is
UTF-8 exactly if the byte at the offset begins a character, and text put behind
it does not repair a broken end. -/
namespace Packing

theorem utf8_append (a b : String) : utf8 (a ++ b) = utf8 a ++ utf8 b := by
  simp [utf8]

theorem ofUtf8_eq_some_iff {bytes : List UInt8} {text : String} :
    ofUtf8 bytes = some text ↔ utf8 text = bytes := by
  constructor
  · intro h
    unfold ofUtf8 String.fromUTF8? at h
    split at h
    · cases h; rfl
    · cases h
  · intro h
    rw [← h, ofUtf8_utf8]

section
variable {text : String} {n : Nat}

theorem toByteArray_extract (text : String) (n : Nat) :
    (text.toByteArray.extract 0 n).data.toList = (utf8 text).take n := by
  simp [utf8]

/-- **The front of a text is a text** exactly if the byte behind it begins a character. -/
theorem exists_utf8_eq_take_iff (hn : n < (utf8 text).length) :
    (∃ front, utf8 front = (utf8 text).take n) ↔ ((utf8 text).getD n 0).IsUTF8FirstByte := by
  have hsize : (utf8 text).length = text.utf8ByteSize := Array.length_toList
  have hlt : (⟨n⟩ : String.Pos.Raw) < text.rawEndPos := by
    show n < text.utf8ByteSize
    omega
  have hbyte : (utf8 text).getD n 0 = text.getUTF8Byte ⟨n⟩ hlt := by
    rw [List.getD_eq_getElem?_getD, List.getElem?_eq_getElem hn]
    rfl
  have hfirst := String.Pos.Raw.isValid_iff_isUTF8FirstByte (s := text) (p := ⟨n⟩)
  have hvalid := String.Pos.Raw.isValid_iff_isValidUTF8_extract_zero (s := text) (p := ⟨n⟩)
  rw [hbyte]
  constructor
  · intro h
    obtain ⟨front, hfront⟩ := h
    have harray : text.toByteArray.extract 0 n = front.toByteArray := by
      apply ByteArray.ext
      apply Array.toList_inj.mp
      rw [toByteArray_extract, ← hfront]
      rfl
    have hin := hvalid.mpr ⟨String.Pos.Raw.le_of_lt hlt, harray ▸ front.isValidUTF8⟩
    rcases hfirst.mp hin with hend | hbegins
    · rw [hend] at hlt
      exact absurd hlt (Nat.lt_irrefl _)
    · exact hbegins.2
  · intro h
    have hextract := (hvalid.mp (hfirst.mpr (.inr ⟨hlt, h⟩))).2
    exact ⟨String.ofByteArray (text.toByteArray.extract 0 n) hextract, toByteArray_extract text n⟩
end

/-- What stands before a text in a text is a text. -/
theorem exists_utf8_eq_append_iff {front : List UInt8} (tail : String) :
    (∃ text, utf8 text = front ++ utf8 tail) ↔ ∃ text, utf8 text = front := by
  constructor
  · intro h
    obtain ⟨text, htext⟩ := h
    by_cases hempty : utf8 tail = []
    · exact ⟨text, by rw [htext, hempty, List.append_nil]⟩
    · have hpos : 0 < (utf8 tail).length := List.length_pos_iff.mpr hempty
      have hn : front.length < (utf8 text).length := by
        rw [htext, List.length_append]
        omega
      have hbyte : (utf8 text).getD front.length 0 = (utf8 tail).getD 0 0 := by
        rw [htext, List.getD_eq_getElem?_getD, List.getElem?_append_right (Nat.le_refl _), Nat.sub_self,
          List.getD_eq_getElem?_getD]
      have hfirst := (exists_utf8_eq_take_iff hpos).mp ⟨"", rfl⟩
      obtain ⟨cut, hcut⟩ := (exists_utf8_eq_take_iff hn).mpr (hbyte ▸ hfirst)
      exact ⟨cut, by rw [hcut, htext, List.take_left' rfl]⟩
  · intro h
    obtain ⟨text, htext⟩ := h
    exact ⟨text ++ tail, by rw [utf8_append, htext]⟩

end Packing
