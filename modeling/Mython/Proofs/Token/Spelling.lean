import Mython.Proofs.Text.Utf8
import Mython.Proofs.Token.Reading

/-! `Spelled` says which bytes are written for a token, without a word about scanners, and `Stops`
which bytes may stand behind it. -/

namespace Mython

namespace Byte

/-- A visible ASCII character that is no quote and no part of a word. -/
def isMark (b : UInt8) : Bool := isGraphic b && !isQuote b && !isWord b

/-- A letter or an underscore, and then letters, digits and underscores. -/
def SpellsWord (run : List UInt8) : Prop :=
  (∃ b ∈ run.head?, startsWord b = true) ∧ ∀ b ∈ run, isWord b = true

instance (run : List UInt8) : Decidable (SpellsWord run) :=
  decidable_of_iff ((run.head?.any startsWord && run.all isWord) = true) (by
    simp [SpellsWord, Option.any_eq_true])

end Byte

namespace Token.Kind

/-- The bytes that are written for a token. Blocks are not written but laid out. -/
def Spelled : Kind → List UInt8 → Prop
  | number value, run => run ≠ [] ∧ (∀ b ∈ run, Byte.isDigit b = true) ∧
      value.toInt = Decimal.value (Byte.text run).toList
  | name word, run => run = utf8 word ∧ Byte.SpellsWord run ∧
      (∀ k : Keyword, k.spelling ≠ word) ∧ word ≠ "eof"
  | text content, run => ∃ quote, Byte.isQuote quote = true ∧ quote ∉ utf8 content ∧
      run = quote :: (utf8 content ++ [quote])
  | mark c, run => ∃ b, Byte.isMark b = true ∧ c = Char.ofNat b.toNat ∧ run = [b]
  | keyword k, run => run = utf8 k.spelling
  | equal, run => run = utf8 "=="
  | notEqual, run => run = utf8 "!="
  | atMost, run => run = utf8 "<="
  | atLeast, run => run = utf8 ">="
  | newline, run => run = [Byte.lineFeed]
  | eof, run => run = utf8 "eof"
  | indent, _ | dedent, _ => False

/-- What may stand behind a token that is written: nothing that would be a part of it. -/
def Stops : Kind → List UInt8 → Prop
  | number _, rest => ∀ b ∈ rest.head?, Byte.isDigit b = false
  | name _, rest | keyword _, rest | eof, rest => ∀ b ∈ rest.head?, Byte.isWord b = false
  | mark c, rest => (withEquals? c).isSome = true → rest.head? ≠ some 0x3d
  | _, _ => True

end Token.Kind

namespace Byte

theorem eq_iff_toNat {b c : UInt8} : b = c ↔ b.toNat = c.toNat := UInt8.toNat_inj.symm

theorem isDigit_iff {b : UInt8} : isDigit b = true ↔ 48 ≤ b.toNat ∧ b.toNat ≤ 57 := by
  simp [isDigit, UInt8.le_iff_toNat_le]

theorem startsWord_iff {b : UInt8} : startsWord b = true ↔
    (65 ≤ b.toNat ∧ b.toNat ≤ 90 ∨ 97 ≤ b.toNat ∧ b.toNat ≤ 122) ∨ b.toNat = 95 := by
  simp [startsWord, isLetter, UInt8.le_iff_toNat_le, eq_iff_toNat]

theorem isWord_iff {b : UInt8} : isWord b = true ↔
    ((65 ≤ b.toNat ∧ b.toNat ≤ 90 ∨ 97 ≤ b.toNat ∧ b.toNat ≤ 122) ∨ b.toNat = 95) ∨
      48 ≤ b.toNat ∧ b.toNat ≤ 57 := by
  rw [isWord, Bool.or_eq_true, startsWord_iff, isDigit_iff]

theorem isQuote_iff {b : UInt8} : isQuote b = true ↔ b.toNat = 39 ∨ b.toNat = 34 := by
  simp [isQuote, eq_iff_toNat]

theorem isGraphic_iff {b : UInt8} : isGraphic b = true ↔ 33 ≤ b.toNat ∧ b.toNat ≤ 126 := by
  simp [isGraphic, UInt8.le_iff_toNat_le]

theorem isInlineBlank_iff {b : UInt8} :
    isInlineBlank b = true ↔ (b.toNat = 32 ∨ b.toNat = 9) ∨ b.toNat = 13 := by
  simp [isInlineBlank, space, eq_iff_toNat]

theorem eq_lineFeed_iff {b : UInt8} : b = lineFeed ↔ b.toNat = 10 := eq_iff_toNat

/-- Blanks are not visible. -/
theorem isBlank_of_visible {b : UInt8} (hb : 33 ≤ b.toNat) : isBlank b = false := by
  rw [← Bool.not_eq_true, isBlank, Bool.or_eq_true, isInlineBlank_iff, beq_iff_eq, eq_lineFeed_iff]
  omega

theorem visible_of_isMark {b : UInt8} (hb : isMark b = true) : 33 ≤ b.toNat ∧ b.toNat < 128 := by
  simp only [isMark, Bool.and_eq_true] at hb
  have hrange := isGraphic_iff.1 hb.1.1
  omega

end Byte

namespace Number

/-- A word is the one that holds an integer if and only if it is that integer. -/
theorem ofInt?_eq_some {n : Int} {value : Number} : ofInt? n = some value ↔ value.toInt = n := by
  have hlow := Int64.le_toInt value
  have hhigh := Int64.toInt_lt value
  constructor
  · intro h
    rw [ofInt?] at h
    split at h
    · next hrange =>
      cases h
      exact Int64.toInt_ofInt_of_le hrange.1 (Int.lt_add_one_of_le hrange.2)
    · cases h
  · rintro rfl
    have hrange : least ≤ value.toInt ∧ value.toInt ≤ greatest :=
      ⟨hlow, Int.le_of_lt_add_one hhigh⟩
    rw [ofInt?, if_pos hrange, Int64.ofInt_toInt]

end Number

namespace Keyword

theorem ofSpelling?_eq_some {word : String} {k : Keyword} :
    ofSpelling? word = some k ↔ k.spelling = word := by
  constructor
  · intro h
    rw [ofSpelling?] at h
    have hfound := List.find?_some h
    exact eq_of_beq hfound
  · rintro rfl
    cases k <;> decide

theorem ofSpelling?_eq_none {word : String} :
    ofSpelling? word = none ↔ ∀ k : Keyword, k.spelling ≠ word := by
  rw [Option.eq_none_iff_forall_ne_some]
  exact forall_congr' fun k => not_congr ofSpelling?_eq_some

theorem spellsWord (k : Keyword) : Byte.SpellsWord (utf8 k.spelling) := by
  cases k <;> decide

end Keyword

namespace Lexeme

open Token.Kind

theorem takeWhile_of_stops {p : UInt8 → Bool} {run rest : List UInt8} (hrun : ∀ b ∈ run, p b = true)
    (hrest : ∀ b ∈ rest.head?, p b = false) : (run ++ rest).takeWhile p = run := by
  have hnone : rest.takeWhile p = [] := by
    cases rest with
    | nil => rfl
    | cons b rest => simp [hrest b rfl]
  rw [List.takeWhile_append_of_pos hrun, hnone, List.append_nil]

/-- The longest run at the head of a text, cut off from it. -/
theorem takeWhile_split (p : UInt8 → Bool) (text : List UInt8) :
    text.take (text.takeWhile p).length = text.takeWhile p ∧
      ∀ b ∈ (text.drop (text.takeWhile p).length).head?, p b = false := by
  have hsplit : text.takeWhile p ++ text.dropWhile p = text := List.takeWhile_append_dropWhile
  have htake : (text.takeWhile p ++ text.dropWhile p).take (text.takeWhile p).length =
      text.takeWhile p := List.take_left
  have hdrop : (text.takeWhile p ++ text.dropWhile p).drop (text.takeWhile p).length =
      text.dropWhile p := List.drop_left
  rw [hsplit] at htake hdrop
  rw [hdrop]
  exact ⟨htake, Scanner.head?_dropWhile_false⟩

/-- A lexeme that is a token: what it takes is written for the token, and the rest stands behind. -/
def Reads (text : List UInt8) (l : Lexeme) : Prop :=
  ∀ kind, l.kind = .ok kind → kind.Spelled (text.take l.length) ∧ kind.Stops (text.drop l.length)

theorem ofDigit_reads {first : UInt8} (hf : Byte.isDigit first = true) (rest : List UInt8) :
    Reads (first :: rest) (ofDigit first rest) := by
  intro kind hk
  simp only [ofDigit] at hk ⊢
  obtain ⟨htake, hstop⟩ := takeWhile_split Byte.isDigit rest
  split at hk
  · next value hvalue =>
    cases hk
    simp only [List.length_cons, List.take_succ_cons, List.drop_succ_cons, htake]
    refine ⟨⟨by simp, ?_, Number.ofInt?_eq_some.1 hvalue⟩, hstop⟩
    intro b hb
    rcases List.mem_cons.1 hb with rfl | hb
    · exact hf
    · exact List.mem_takeWhile_imp hb
  · cases hk

theorem ofLetter_reads {first : UInt8} (hf : Byte.startsWord first = true) (rest : List UInt8) :
    Reads (first :: rest) (ofLetter first rest) := by
  intro kind hk
  obtain ⟨htake, hstop⟩ := takeWhile_split Byte.isWord rest
  have hall : ∀ b ∈ first :: rest.takeWhile Byte.isWord, Byte.isWord b = true := by
    intro b hb
    rcases List.mem_cons.1 hb with rfl | hb
    · simp [Byte.isWord, hf]
    · exact List.mem_takeWhile_imp hb
  have hword : Byte.SpellsWord (first :: rest.takeWhile Byte.isWord) := ⟨⟨first, rfl, hf⟩, hall⟩
  have hutf : utf8 (Byte.text (first :: rest.takeWhile Byte.isWord)) =
      first :: rest.takeWhile Byte.isWord := Utf8.utf8_text fun b hb => by
        have hb := Byte.isWord_iff.1 (hall b hb)
        omega
  simp only [ofLetter, ofWord] at hk ⊢
  simp only [List.length_cons, List.take_succ_cons, List.drop_succ_cons, htake]
  split at hk
  · next k hspelling =>
    cases hk
    rw [← hutf]
    exact ⟨congrArg utf8 (Keyword.ofSpelling?_eq_some.1 hspelling).symm, hstop⟩
  · next hspelling =>
    split at hk
    · next heof =>
      cases hk
      rw [← hutf]
      exact ⟨congrArg utf8 (eq_of_beq heof), hstop⟩
    · next heof =>
      cases hk
      refine ⟨⟨hutf.symm, hword, Keyword.ofSpelling?_eq_none.1 hspelling, ?_⟩, hstop⟩
      simpa using heof

theorem ofNat_injective {b c : UInt8} (hb : b.toNat < 128) (hc : c.toNat < 128)
    (h : Char.ofNat b.toNat = Char.ofNat c.toNat) : b = c := by
  have hbytes := Utf8.encodeChar_of_ascii hb
  rw [h, Utf8.encodeChar_of_ascii hc] at hbytes
  exact (List.cons.inj hbytes).1.symm

/-- An operator of two characters is a mark and an equals sign. -/
theorem withEquals?_spelled {b : UInt8} (hb : b.toNat < 128) {kind : Token.Kind}
    (h : withEquals? (Char.ofNat b.toNat) = some kind) : kind.Spelled [b, 0x3d] := by
  unfold withEquals? at h
  split at h
  · next hc =>
    cases h
    rw [ofNat_injective hb (show (0x3d : UInt8).toNat < 128 by decide) hc]
    rfl
  · next hc =>
    cases h
    rw [ofNat_injective hb (show (0x21 : UInt8).toNat < 128 by decide) hc]
    rfl
  · next hc =>
    cases h
    rw [ofNat_injective hb (show (0x3c : UInt8).toNat < 128 by decide) hc]
    rfl
  · next hc =>
    cases h
    rw [ofNat_injective hb (show (0x3e : UInt8).toNat < 128 by decide) hc]
    rfl
  · cases h

theorem stops_of_withEquals? {c : Char} {kind : Token.Kind} (h : withEquals? c = some kind)
    (rest : List UInt8) : kind.Stops rest := by
  unfold withEquals? at h
  split at h
  · cases h; trivial
  · cases h; trivial
  · cases h; trivial
  · cases h; trivial
  · cases h

theorem ofMark_reads {first : UInt8} (hf : Byte.isMark first = true) (rest : List UInt8) :
    Reads (first :: rest) (ofMark first rest) := by
  have hlt := (Byte.visible_of_isMark hf).2
  intro kind hk
  simp only [ofMark] at hk ⊢
  split at hk
  · next operator hop hhead =>
    cases hk
    obtain ⟨more, rfl⟩ : ∃ more, rest = 0x3d :: more := by
      cases rest with
      | nil => cases hhead
      | cons b more =>
        cases hhead
        exact ⟨more, rfl⟩
    exact ⟨withEquals?_spelled hlt hop, stops_of_withEquals? hop _⟩
  · next hnot =>
    cases hk
    refine ⟨⟨first, hf, rfl, rfl⟩, ?_⟩
    intro hsome hhead
    obtain ⟨operator, hop⟩ := Option.isSome_iff_exists.1 hsome
    exact hnot operator hop hhead

/-- A text literal is read as it stands, because quotes are never parts of longer characters. -/
theorem ofQuote_reads {first : UInt8} (hf : Byte.isQuote first = true) {rest : List UInt8}
    {source : String} {before : List UInt8} (hs : utf8 source = before ++ first :: rest) :
    Reads (first :: rest) (ofQuote first rest) := by
  intro kind hk
  simp only [ofQuote] at hk ⊢
  obtain ⟨htake, hstop⟩ := takeWhile_split (· != first) rest
  split at hk
  · cases hk
  · next hlen =>
    cases hk
    rw [if_neg hlen]
    obtain ⟨more, hmore⟩ : ∃ more, rest = rest.takeWhile (· != first) ++ first :: more := by
      have hsplit : rest.takeWhile (· != first) ++ rest.dropWhile (· != first) = rest :=
        List.takeWhile_append_dropWhile
      cases hdrop : rest.dropWhile (· != first) with
      | nil =>
        rw [hdrop, List.append_nil] at hsplit
        exact absurd (congrArg List.length hsplit) hlen
      | cons b more =>
        have hb := @Scanner.head?_dropWhile_false (· != first) rest b (by rw [hdrop]; rfl)
        obtain rfl : b = first := by simpa using hb
        exact ⟨more, by rw [← hdrop, hsplit]⟩
    have hlt : first.toNat < 128 := by
      have hquote := Byte.isQuote_iff.1 hf
      omega
    obtain ⟨content, hcontent⟩ := Utf8.between hlt hlt (hmore ▸ hs)
    refine ⟨⟨first, hf, ?_, ?_⟩, trivial⟩
    · rw [hcontent, Utf8.decode_utf8, ← hcontent]
      intro hmem
      simpa using List.mem_takeWhile_imp hmem
    · have hrest : rest.take ((rest.takeWhile (· != first)).length + 1) =
          rest.takeWhile (· != first) ++ [first] := by
        have hcut := congrArg (List.take ((rest.takeWhile (· != first)).length + 1)) hmore
        simpa [List.take_append, List.take_of_length_le] using hcut
      rw [hcontent, Utf8.decode_utf8, ← hcontent, List.take_succ_cons, hrest]

/-- Whatever is read as a token is written for it, and goes on no further. -/
theorem read_reads {first : UInt8} {rest : List UInt8} {source : String} {before : List UInt8}
    (hs : utf8 source = before ++ first :: rest) : Reads (first :: rest) (read first rest) := by
  unfold read
  split
  · next hf =>
    rintro kind ⟨⟩
    exact ⟨by simp [hf, Spelled], trivial⟩
  split
  · next hf => exact ofQuote_reads hf hs
  split
  · next hf => exact ofDigit_reads hf rest
  split
  · next hf => exact ofLetter_reads hf rest
  split
  · next hquote hdigit hword hf =>
    apply ofMark_reads
    simp_all [Byte.isMark, Byte.isWord]
  · rintro kind ⟨⟩

theorem read_of_quote {b : UInt8} (hb : Byte.isQuote b = true) (rest : List UInt8) :
    read b rest = ofQuote b rest := by
  have hline : b ≠ Byte.lineFeed := by
    simp only [Byte.isQuote_iff, ne_eq, Byte.eq_lineFeed_iff] at *
    omega
  rw [read, if_neg hline, if_pos hb]

theorem read_of_digit {b : UInt8} (hb : Byte.isDigit b = true) (rest : List UInt8) :
    read b rest = ofDigit b rest := by
  have hline : b ≠ Byte.lineFeed := by
    simp only [Byte.isDigit_iff, ne_eq, Byte.eq_lineFeed_iff] at *
    omega
  have hquote : ¬ Byte.isQuote b = true := by
    simp only [Byte.isDigit_iff, Byte.isQuote_iff] at *
    omega
  rw [read, if_neg hline, if_neg hquote, if_pos hb]

theorem read_of_startsWord {b : UInt8} (hb : Byte.startsWord b = true) (rest : List UInt8) :
    read b rest = ofLetter b rest := by
  have hline : b ≠ Byte.lineFeed := by
    simp only [Byte.startsWord_iff, ne_eq, Byte.eq_lineFeed_iff] at *
    omega
  have hquote : ¬ Byte.isQuote b = true := by
    simp only [Byte.startsWord_iff, Byte.isQuote_iff] at *
    omega
  have hdigit : ¬ Byte.isDigit b = true := by
    simp only [Byte.startsWord_iff, Byte.isDigit_iff] at *
    omega
  rw [read, if_neg hline, if_neg hquote, if_neg hdigit, if_pos hb]

theorem read_of_isMark {b : UInt8} (hb : Byte.isMark b = true) (rest : List UInt8) :
    read b rest = ofMark b rest := by
  simp only [Byte.isMark, Byte.isWord, Bool.and_eq_true, Bool.not_eq_true', Bool.or_eq_false_iff]
    at hb
  obtain ⟨⟨hgraphic, hquote⟩, hword, hdigit⟩ := hb
  have hline : b ≠ Byte.lineFeed := by
    simp only [Byte.isGraphic_iff, ne_eq, Byte.eq_lineFeed_iff] at *
    omega
  simp [read, hline, hgraphic, hquote, hword, hdigit]

/-- A lexeme at the head of a text, which no blank is. -/
def Heads (text : List UInt8) (length : Nat) (kind : Token.Kind) : Prop :=
  ∃ first rest, text = first :: rest ∧ Byte.isBlank first = false ∧
    read first rest = ⟨length, .ok kind⟩

theorem heads_number {value : Number} {run rest : List UInt8} (hr : (number value).Spelled run)
    (hs : (number value).Stops rest) : Heads (run ++ rest) run.length (number value) := by
  obtain ⟨hne, hall, hvalue⟩ := hr
  obtain ⟨b, more, rfl⟩ := List.exists_cons_of_ne_nil hne
  have hb := hall b List.mem_cons_self
  have hdigits : (more ++ rest).takeWhile Byte.isDigit = more :=
    takeWhile_of_stops (fun c hc => hall c (List.mem_cons_of_mem b hc)) hs
  refine ⟨b, more ++ rest, rfl, ?_, ?_⟩
  · have hrange := Byte.isDigit_iff.1 hb
    exact Byte.isBlank_of_visible (by omega)
  · simp only [read_of_digit hb, ofDigit, hdigits, Number.ofInt?_eq_some.2 hvalue]

/-- A word is read whole, whatever it stands for. -/
theorem heads_word {word : String} {rest : List UInt8} (hw : Byte.SpellsWord (utf8 word))
    (hs : ∀ b ∈ rest.head?, Byte.isWord b = false) :
    Heads (utf8 word ++ rest) (utf8 word).length (ofWord word) := by
  obtain ⟨⟨b, hhead, hb⟩, hall⟩ := hw
  have hword : Byte.text (utf8 word) = word := by
    apply Utf8.utf8_injective
    apply Utf8.utf8_text
    intro c hc
    have hrange := Byte.isWord_iff.1 (hall c hc)
    omega
  obtain ⟨more, hmore⟩ : ∃ more, utf8 word = b :: more := by
    cases hutf : utf8 word with
    | nil => rw [hutf] at hhead; cases hhead
    | cons c more => rw [hutf] at hhead; cases hhead; exact ⟨more, rfl⟩
  have htake : (more ++ rest).takeWhile Byte.isWord = more := by
    apply takeWhile_of_stops _ hs
    intro c hc
    exact hall c (by rw [hmore]; exact List.mem_cons_of_mem b hc)
  refine ⟨b, more ++ rest, by rw [hmore]; rfl, ?_, ?_⟩
  · have hrange := Byte.startsWord_iff.1 hb
    exact Byte.isBlank_of_visible (by omega)
  · rw [read_of_startsWord hb, ofLetter, htake, ← hmore, hword]

theorem heads_text {content : String} {run rest : List UInt8} (hr : (text content).Spelled run) :
    Heads (run ++ rest) run.length (text content) := by
  obtain ⟨quote, hquote, hfree, rfl⟩ := hr
  have hvisible : 33 ≤ quote.toNat := by
    have hrange := Byte.isQuote_iff.1 hquote
    omega
  have htake : (utf8 content ++ quote :: rest).takeWhile (· != quote) = utf8 content := by
    apply takeWhile_of_stops
    · intro b hb
      simp only [bne_iff_ne, ne_eq]
      rintro rfl
      exact hfree hb
    · simp
  refine ⟨quote, utf8 content ++ quote :: rest, by simp, Byte.isBlank_of_visible hvisible, ?_⟩
  have hclosed : (utf8 content).length ≠ (utf8 content ++ quote :: rest).length := by
    rw [List.length_append, List.length_cons]
    omega
  simp only [read_of_quote hquote, ofQuote, htake, if_neg hclosed, Utf8.decode_utf8]
  simp

theorem heads_mark {c : Char} {run rest : List UInt8} (hr : (mark c).Spelled run)
    (hs : (mark c).Stops rest) : Heads (run ++ rest) run.length (mark c) := by
  obtain ⟨b, hb, rfl, rfl⟩ := hr
  refine ⟨b, rest, rfl, Byte.isBlank_of_visible (Byte.visible_of_isMark hb).1, ?_⟩
  rw [read_of_isMark hb]
  simp only [ofMark]
  split
  · next operator hop hhead => exact absurd hhead (hs (by rw [hop]; rfl))
  · rfl

/-- A mark and an equals sign are read as the operator that they form. -/
theorem heads_operator {b : UInt8} {kind : Token.Kind} (hb : Byte.isMark b = true)
    (hop : withEquals? (Char.ofNat b.toNat) = some kind) (rest : List UInt8) :
    Heads ([b, 0x3d] ++ rest) 2 kind := by
  refine ⟨b, 0x3d :: rest, rfl, Byte.isBlank_of_visible (Byte.visible_of_isMark hb).1, ?_⟩
  simp only [read_of_isMark hb, ofMark, List.head?_cons, hop]

/-- Whatever is written for a token of content is read as it, unless what follows belongs to it. -/
theorem heads_of_spelled {kind : Token.Kind} {run rest : List UInt8} (hc : kind.isContent = true)
    (hr : kind.Spelled run) (hs : kind.Stops rest) : Heads (run ++ rest) run.length kind := by
  cases kind with
  | number value => exact heads_number hr hs
  | name word =>
    obtain ⟨rfl, hword, hkeyword, heof⟩ := hr
    have hkind : ofWord word = name word := by
      simp only [ofWord, Keyword.ofSpelling?_eq_none.2 hkeyword]
      simp [heof]
    exact hkind ▸ heads_word hword hs
  | text content => exact heads_text hr
  | mark c => exact heads_mark hr hs
  | keyword k =>
    have hkind : ofWord k.spelling = keyword k := by
      simp only [ofWord, Keyword.ofSpelling?_eq_some.2 rfl]
    cases hr
    exact hkind ▸ heads_word k.spellsWord hs
  | equal => cases hr; exact heads_operator (b := 0x3d) rfl rfl rest
  | notEqual => cases hr; exact heads_operator (b := 0x21) rfl rfl rest
  | atMost => cases hr; exact heads_operator (b := 0x3c) rfl rfl rest
  | atLeast => cases hr; exact heads_operator (b := 0x3e) rfl rfl rest
  | newline => cases hc
  | indent => cases hc
  | dedent => cases hc
  | eof => cases hc

end Lexeme

end Mython
