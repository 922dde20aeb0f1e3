import Mathlib.Data.List.Basic
import Mython.Text.Byte

namespace Mython

/-- The bytes of a text. -/
def utf8 (source : String) : List UInt8 := source.toUTF8.data.toList

namespace Utf8

/-- The bytes of a text are those of its characters. -/
theorem utf8_eq_flatMap (s : String) : utf8 s = s.toList.flatMap String.utf8EncodeChar := by
  have hbytes : s.toUTF8 = (s.toList.flatMap String.utf8EncodeChar).toByteArray := by
    rw [String.toUTF8_eq_toByteArray, ← String.utf8Encode_toList]
    rfl
  rw [utf8, hbytes, List.toList_data_toByteArray]

@[simp]
theorem utf8_empty : utf8 "" = [] := by
  rw [utf8_eq_flatMap]
  rfl

@[simp]
theorem utf8_append (s t : String) : utf8 (s ++ t) = utf8 s ++ utf8 t := by
  rw [utf8_eq_flatMap, utf8_eq_flatMap, utf8_eq_flatMap, String.toList_append, List.flatMap_append]

/-- What has been encoded is decoded as it was. -/
theorem decode_utf8 (s : String) : Byte.decode (utf8 s) = s := by
  have hvalid : (⟨(utf8 s).toArray⟩ : ByteArray).IsValidUTF8 := s.isValidUTF8
  rw [Byte.decode, String.fromUTF8?, dif_pos hvalid]
  rfl

theorem utf8_injective {s t : String} (h : utf8 s = utf8 t) : s = t := by
  rw [← decode_utf8 s, h, decode_utf8]

/-- A character is one byte of ASCII, or has none. -/
theorem encodeChar_ascii (c : Char) :
    (∃ b : UInt8, b.toNat < 128 ∧ c = Char.ofNat b.toNat ∧ String.utf8EncodeChar c = [b]) ∨
      ∀ b ∈ String.utf8EncodeChar c, 128 ≤ b.toNat := by
  have hofNat (n : Nat) (hlow : 128 ≤ n) (hhigh : n < 256) : 128 ≤ (UInt8.ofNat n).toNat := by
    rw [UInt8.toNat_ofNat_of_lt' hhigh]
    exact hlow
  rw [String.utf8EncodeChar.eq_1]
  by_cases hone : c.val.toNat ≤ 127
  · left
    have hbyte : (UInt8.ofNat c.val.toNat).toNat = c.val.toNat :=
      UInt8.toNat_ofNat_of_lt' (by simp only [UInt8.size]; omega)
    refine ⟨UInt8.ofNat c.val.toNat, by omega, ?_, if_pos hone⟩
    rw [hbyte]
    exact (Char.ofNat_toNat c).symm
  · right
    rw [if_neg hone]
    intro b hb
    split at hb
    · simp only [List.mem_cons, List.not_mem_nil, or_false] at hb
      rcases hb with rfl | rfl <;> exact hofNat _ (by omega) (by omega)
    · split at hb
      · simp only [List.mem_cons, List.not_mem_nil, or_false] at hb
        rcases hb with rfl | rfl | rfl <;> exact hofNat _ (by omega) (by omega)
      · simp only [List.mem_cons, List.not_mem_nil, or_false] at hb
        rcases hb with rfl | rfl | rfl | rfl <;> exact hofNat _ (by omega) (by omega)

theorem encodeChar_of_ascii {b : UInt8} (hb : b.toNat < 128) :
    String.utf8EncodeChar (Char.ofNat b.toNat) = [b] := by
  have hvalid : b.toNat.isValidChar := Or.inl (by omega)
  have hval : (Char.ofNat b.toNat).val.toNat = b.toNat := by
    rw [Char.ofNat, dif_pos hvalid]
    rfl
  rw [String.utf8EncodeChar.eq_1, hval, if_pos (by omega), UInt8.ofNat_toNat]

/-- A run of ASCII is the text that it spells. -/
theorem utf8_text {run : List UInt8} (h : ∀ b ∈ run, b.toNat < 128) :
    utf8 (Byte.text run) = run := by
  rw [utf8_eq_flatMap, Byte.text, String.toList_ofList]
  induction run with
  | nil => rfl
  | cons b run ih =>
    rw [List.map_cons, List.flatMap_cons, encodeChar_of_ascii (h b List.mem_cons_self),
      ih fun c hc => h c (List.mem_cons_of_mem b hc)]
    rfl

/-- A text can be cut at every byte of ASCII. -/
theorem cut_chars {b : UInt8} (hb : b.toNat < 128) (cs : List Char) {before after : List UInt8}
    (h : cs.flatMap String.utf8EncodeChar = before ++ b :: after) :
    ∃ front back : List Char, before = front.flatMap String.utf8EncodeChar ∧
      after = back.flatMap String.utf8EncodeChar := by
  induction cs generalizing before with
  | nil => simp at h
  | cons c cs ih =>
    rw [List.flatMap_cons] at h
    rcases List.append_eq_append_iff.1 h with ⟨more, rfl, hrest⟩ | ⟨part, hchar, hrest⟩
    · obtain ⟨front, back, rfl, rfl⟩ := ih hrest
      exact ⟨c :: front, back, by rw [List.flatMap_cons], rfl⟩
    · cases part with
      | nil =>
        rw [List.append_nil] at hchar
        obtain ⟨front, back, hfront, rfl⟩ := @ih [] (by simpa using hrest.symm)
        exact ⟨c :: front, back, by rw [List.flatMap_cons, ← hfront, hchar, List.append_nil], rfl⟩
      | cons d part =>
        obtain ⟨rfl, rfl⟩ := List.cons.inj hrest
        rcases encodeChar_ascii c with ⟨d, -, -, hd⟩ | hall
        · rw [hd] at hchar
          cases before with
          | nil =>
            obtain ⟨-, rfl⟩ := List.cons.inj hchar
            exact ⟨[], cs, rfl, rfl⟩
          | cons e before => simp at hchar
        · have hlow := hall b (by rw [hchar]; simp)
          omega

theorem cut {b : UInt8} (hb : b.toNat < 128) {s : String} {before after : List UInt8}
    (h : utf8 s = before ++ b :: after) :
    ∃ front back, before = utf8 front ∧ after = utf8 back := by
  rw [utf8_eq_flatMap] at h
  obtain ⟨front, back, rfl, rfl⟩ := cut_chars hb s.toList h
  refine ⟨String.ofList front, String.ofList back, ?_, ?_⟩
  · rw [utf8_eq_flatMap, String.toList_ofList]
  · rw [utf8_eq_flatMap, String.toList_ofList]

/-- What stands between two bytes of ASCII is a text. -/
theorem between {b c : UInt8} (hb : b.toNat < 128) (hc : c.toNat < 128) {s : String}
    {before content after : List UInt8} (h : utf8 s = before ++ b :: (content ++ c :: after)) :
    ∃ t, content = utf8 t := by
  obtain ⟨-, back, -, hback⟩ := cut hb h
  obtain ⟨front, -, hfront, -⟩ := cut hc hback.symm
  exact ⟨front, hfront⟩

end Utf8

end Mython
