import Raeva.Library.Framing

/-!
# UTF-8

A character's encoding says where it ends, so a text can be read from its
encoding.
-/

namespace Raeva

theorem utf8EncodeChar_selfDelimiting :
    SelfDelimiting (fun _ : Char => True) String.utf8EncodeChar := by
  intro c d _ _ s t h
  have key : ∀ (c : Char) (s : List UInt8),
      (String.utf8EncodeChar c ++ s).toByteArray.utf8DecodeChar? 0 = some c := by
    intro c s
    rw [List.toByteArray_append]
    exact ByteArray.utf8DecodeChar?_utf8EncodeChar_append
  have hcd : c = d := by
    have := key c s
    rw [h, key d t] at this
    exact (Option.some.inj this).symm
  subst hcd
  exact ⟨rfl, List.append_cancel_left h⟩

def utf8 (text : List Char) : List UInt8 :=
  text.flatMap String.utf8EncodeChar

theorem utf8_injective : Function.Injective utf8 := by
  intro a b h
  refine utf8EncodeChar_selfDelimiting.flatMap_inj (fun c _ hc => ?_) (fun _ _ => trivial)
    (fun _ _ => trivial) h
  have hlength := String.length_utf8EncodeChar c
  have hpos := c.utf8Size_pos
  rw [hc, List.length_nil] at hlength
  omega

/-- `String::from_utf8`. -/
def fromUtf8 (bytes : List UInt8) : Option (List Char) :=
  (String.fromUTF8? bytes.toByteArray).map String.toList

theorem fromUtf8_eq_some {bytes : List UInt8} {text : List Char} :
    fromUtf8 bytes = some text ↔ bytes = utf8 text := by
  rw [fromUtf8, Option.map_eq_some_iff]
  constructor
  · rintro ⟨s, hs, rfl⟩
    rw [String.fromUTF8?] at hs
    split at hs
    · cases hs
      have hencode : (utf8 (String.fromUTF8 bytes.toByteArray ‹_›).toList).toByteArray =
        bytes.toByteArray := String.utf8Encode_toList
      exact (List.toByteArray_inj.mp hencode).symm
    · cases hs
  · rintro rfl
    refine ⟨String.ofList text, ?_, String.toList_ofList⟩
    rw [String.fromUTF8?, dif_pos (.intro text rfl)]
    exact congrArg some (String.toByteArray_inj.mp String.toByteArray_ofList.symm)

def hashStr (text : List Char) : List UInt8 :=
  framed le64 (utf8 text)

theorem hashStr_selfDelimiting :
    SelfDelimiting (fun text : List Char => (utf8 text).length < 2 ^ 64) hashStr := by
  intro a b ha hb s t h
  obtain ⟨hab, hrest⟩ := le64_selfDelimiting.framed ha hb h
  exact ⟨utf8_injective hab, hrest⟩

end Raeva
