import Mython.SyntaxError

namespace Mython

/-- A run of bytes at the head of a text, by its length and its meaning. -/
structure Lexeme where
  length : Nat
  kind : Except SyntaxError.Cause Token.Kind

namespace Lexeme

/-- A text literal: everything up to the next quote like the one at `quote`, line breaks included.
-/
def ofQuote (quote : UInt8) (rest : List UInt8) : Lexeme :=
  let content := rest.takeWhile (· != quote)
  if content.length = rest.length then ⟨content.length + 1, .error .unclosedText⟩
  else ⟨content.length + 2, .ok (.text (Byte.decode content))⟩

/-- A number: the whole run of digits, refused if no word holds it. -/
def ofDigit (first : UInt8) (rest : List UInt8) : Lexeme :=
  let digits := first :: rest.takeWhile Byte.isDigit
  let spelled := Byte.text digits
  match Number.ofInt? (Decimal.value spelled.toList) with
  | some value => ⟨digits.length, .ok (.number value)⟩
  | none => ⟨digits.length, .error (.numberOutOfRange spelled)⟩

/-- A word: the whole run of letters, digits and underscores. -/
def ofLetter (first : UInt8) (rest : List UInt8) : Lexeme :=
  let word := first :: rest.takeWhile Byte.isWord
  ⟨word.length, .ok (.ofWord (Byte.text word))⟩

/-- A mark, or the operator that it forms with an equals sign. -/
def ofMark (first : UInt8) (rest : List UInt8) : Lexeme :=
  let c := Char.ofNat first.toNat
  match Token.Kind.withEquals? c, rest.head? with
  | some operator, some 0x3d => ⟨2, .ok operator⟩
  | _, _ => ⟨1, .ok (.mark c)⟩

/-- The lexeme that starts with `first`, which is no inline blank. -/
def read (first : UInt8) (rest : List UInt8) : Lexeme :=
  if first = Byte.lineFeed then ⟨1, .ok .newline⟩
  else if Byte.isQuote first then ofQuote first rest
  else if Byte.isDigit first then ofDigit first rest
  else if Byte.startsWord first then ofLetter first rest
  else if Byte.isGraphic first then ofMark first rest
  else ⟨1, .error (.strayByte first)⟩

/-- A lexeme takes at least its first byte, and nothing beyond the bytes behind it. -/
structure Fits (l : Lexeme) (rest : List UInt8) : Prop where
  pos : 0 < l.length
  le : l.length ≤ rest.length + 1

theorem length_takeWhile_le (p : UInt8 → Bool) (run : List UInt8) :
    (run.takeWhile p).length ≤ run.length :=
  (List.takeWhile_sublist p).length_le

theorem ofQuote_fits (quote : UInt8) (rest : List UInt8) : (ofQuote quote rest).Fits rest := by
  have content := length_takeWhile_le (· != quote) rest
  simp only [ofQuote]
  split
  · exact ⟨by simp, by simpa using content⟩
  · refine ⟨by simp, ?_⟩
    simp only
    omega

theorem ofDigit_fits (first : UInt8) (rest : List UInt8) : (ofDigit first rest).Fits rest := by
  have digits := length_takeWhile_le Byte.isDigit rest
  simp only [ofDigit]
  split
  · exact ⟨by simp, by simpa using digits⟩
  · exact ⟨by simp, by simpa using digits⟩

theorem ofLetter_fits (first : UInt8) (rest : List UInt8) : (ofLetter first rest).Fits rest :=
  ⟨by simp [ofLetter], by simpa [ofLetter] using length_takeWhile_le Byte.isWord rest⟩

theorem ofMark_fits (first : UInt8) (rest : List UInt8) : (ofMark first rest).Fits rest := by
  simp only [ofMark]
  split
  · rename_i equals
    rcases rest with _ | ⟨second, others⟩
    · simp at equals
    · exact ⟨by simp, by simp⟩
  · exact ⟨by simp, by simp⟩

/-- Every lexeme fits, whether or not it is a token. -/
theorem read_fits (first : UInt8) (rest : List UInt8) : (read first rest).Fits rest := by
  have single (kind : Except SyntaxError.Cause Token.Kind) : Fits ⟨1, kind⟩ rest :=
    ⟨by simp, by simp⟩
  unfold read
  split
  · exact single _
  split
  · exact ofQuote_fits first rest
  split
  · exact ofDigit_fits first rest
  split
  · exact ofLetter_fits first rest
  split
  · exact ofMark_fits first rest
  · exact single _

end Lexeme

end Mython
