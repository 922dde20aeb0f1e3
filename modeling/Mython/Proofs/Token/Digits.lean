import Mathlib.Data.Nat.Digits.Defs
import Mython.Proofs.Token.Requests
import Mython.Proofs.Token.Spelling

namespace Mython

namespace Decimal

theorem toNat_ofNat_byte (b : UInt8) : (Char.ofNat b.toNat).toNat = b.toNat := by
  have hlt := b.toNat_lt
  have hvalid : b.toNat.isValidChar := Or.inl (by omega)
  rw [Char.ofNat, dif_pos hvalid]
  rfl

/-- The decimal value of a run of digits: the last one counts once, and each one in front of
another counts ten times as much. -/
theorem value_text (digits : List UInt8) :
    value (Byte.text digits).toList =
      Nat.ofDigits 10 (digits.reverse.map fun b => b.toNat - 48) := by
  rw [Byte.text, String.toList_ofList, value, List.foldl_map, Nat.ofDigits_eq_foldr, List.foldr_map,
    List.foldr_reverse]
  congr 1
  funext n b
  rw [toNat_ofNat_byte]
  exact Nat.add_comm _ _

theorem value_repr (n : Nat) : value n.repr.toList = n := by
  rw [Nat.toList_repr]
  exact Nat.ofDigitChars_ten_toDigits

/-- The bytes of the decimal text of a natural number are digits. -/
theorem isDigit_of_mem_repr {n : Nat} {b : UInt8} (hb : b ∈ utf8 n.repr) :
    Byte.isDigit b = true := by
  rw [Utf8.utf8_eq_flatMap, Nat.toList_repr, List.mem_flatMap] at hb
  obtain ⟨c, hc, hb⟩ := hb
  have hdigit := Nat.isDigit_of_mem_toDigits (by decide) (by decide) hc
  have hrange : 48 ≤ c.val.toNat ∧ c.val.toNat ≤ 57 := by
    simpa [Char.isDigit, UInt32.le_iff_toNat_le] using hdigit
  rw [String.utf8EncodeChar.eq_1, if_pos (by omega), List.mem_singleton] at hb
  have hbyte : c.val.toNat < 256 := by omega
  rw [hb, Byte.isDigit_iff, UInt8.toNat_ofNat_of_lt' hbyte]
  exact hrange

theorem repr_ne_nil (n : Nat) : utf8 n.repr ≠ [] := by
  intro hnil
  have hempty : n.repr = "" := Utf8.utf8_injective (hnil.trans Utf8.utf8_empty.symm)
  have hdigits := Nat.toList_repr (n := n)
  rw [hempty] at hdigits
  exact Nat.toDigits_ne_nil hdigits.symm

/-- The text of a natural number is written for the word that holds the number. -/
theorem spelled_repr {n : Nat} {value : Number} (h : value.toInt = n) :
    (Token.Kind.number value).Spelled (utf8 n.repr) := by
  refine ⟨repr_ne_nil n, fun b hb => isDigit_of_mem_repr hb, ?_⟩
  have htext : Byte.text (utf8 n.repr) = n.repr := by
    apply Utf8.utf8_injective
    apply Utf8.utf8_text
    intro b hb
    have hrange := Byte.isDigit_iff.1 (isDigit_of_mem_repr hb)
    omega
  rw [htext, value_repr, h]

/-- The text of an integer is that of a natural number, with a minus sign if it is negative. -/
theorem text_eq_toString (n : Int) : text n = toString n := by
  cases n with
  | ofNat n => rfl
  | negSucc n => rfl

end Decimal

namespace Scanner

variable {s a : Scanner} {digits rest : List UInt8}

/-- A run of digits where a scanner arrives. -/
theorem next_of_digits (ha : s.Arrives a) (hr : a.rest = digits ++ rest) (hne : digits ≠ [])
    (hdigits : ∀ b ∈ digits, Byte.isDigit b = true)
    (hstop : ∀ b ∈ rest.head?, Byte.isDigit b = false) :
    s.next.2.rest = rest ∧
      s.next.1 =
        match Number.ofInt? (Decimal.value (Byte.text digits).toList) with
        | some value => .ok ⟨.number value, a.pos⟩
        | none => .error ⟨.numberOutOfRange (Byte.text digits), a.pos⟩ := by
  obtain ⟨first, more, rfl⟩ := List.exists_cons_of_ne_nil hne
  have hfirst := hdigits first List.mem_cons_self
  have hmore : ∀ b ∈ more, Byte.isDigit b = true := fun b hb =>
    hdigits b (List.mem_cons_of_mem first hb)
  have hcut : (first :: (more ++ rest)).drop (first :: more).length = rest := List.drop_left
  rw [next, scan_of_arrives ha, answer, hr]
  simp only [List.cons_append, Lexeme.read_of_digit hfirst, Lexeme.ofDigit,
    Lexeme.takeWhile_of_stops hmore hstop]
  cases Number.ofInt? (Decimal.value (Byte.text (first :: more)).toList) with
  | some value => exact ⟨by rw [skip, hr]; exact hcut, rfl⟩
  | none => exact ⟨by rw [skip, hr]; exact hcut, rfl⟩

end Scanner

end Mython
