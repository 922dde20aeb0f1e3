import Mython.Proofs.Token.LayoutFault
import Mython.Proofs.Token.Spelling

namespace Mython

namespace Rendering

open Token.Kind Margin Layout

/-- A logical line: how deep it stands, and the tokens on it. -/
structure Line where
  level : Nat
  kinds : List Token.Kind
  nonempty : kinds ≠ []
  content : ∀ kind ∈ kinds, kind.isContent = true

/-- A line opens at most one block more than the line before it. -/
def Levelled : Nat → List Line → Prop
  | _, [] => True
  | previous, line :: lines => line.level ≤ previous + 1 ∧ Levelled line.level lines

/-- The tokens of a program that goes on behind a line of some level. -/
def laidOut : Nat → List Line → List Token.Kind
  | previous, [] => List.replicate previous .dedent ++ [.eof]
  | previous, line :: lines =>
    List.replicate (line.level - previous) .indent ++
      List.replicate (previous - line.level) .dedent ++ line.kinds ++
        .newline :: laidOut line.level lines

/-- Tokens written one after another, with blanks between two that would run together. -/
inductive Row : List Token.Kind → List UInt8 → Prop
  | last {kind : Token.Kind} {run : List UInt8} (hrun : kind.Spelled run) : Row [kind] run
  | cons {kind : Token.Kind} {kinds : List Token.Kind} {run blanks text : List UInt8}
      (hrun : kind.Spelled run) (hblanks : ∀ b ∈ blanks, Byte.isInlineBlank b = true)
      (hapart : blanks = [] → kind.Stops text) (htext : Row kinds text) :
      Row (kind :: kinds) (run ++ (blanks ++ text))

/-- A line as it is written: blank lines, its margin, its tokens, and blanks behind them. -/
structure Sheet (line : Line) (skipped margin row trailing : List UInt8) : Prop where
  blankLines : (∀ b ∈ skipped, Byte.isBlank b = true) ∧ EndsLine skipped
  blankMargin : ∀ b ∈ margin, Byte.isInlineBlank b = true
  spaces : margin.count Byte.space = 2 * line.level
  tokens : Row line.kinds row
  blankEnd : ∀ b ∈ trailing, Byte.isInlineBlank b = true

/-- The texts that render a list of lines. The last line may end with the text. -/
inductive Rendered : List Line → List UInt8 → Prop
  | nil {blanks : List UInt8} (hblanks : ∀ b ∈ blanks, Byte.isBlank b = true) : Rendered [] blanks
  | last {line : Line} {skipped margin row trailing : List UInt8}
      (hline : Sheet line skipped margin row trailing) :
      Rendered [line] (skipped ++ margin ++ (row ++ trailing))
  | cons {line : Line} {lines : List Line} {skipped margin row trailing text : List UInt8}
      (hline : Sheet line skipped margin row trailing) (htext : Rendered lines text) :
      Rendered (line :: lines)
        (skipped ++ margin ++ (row ++ (trailing ++ Byte.lineFeed :: text)))

/-- The kinds of the tokens that a scanner gives up to the end. -/
def Gives (s : Scanner) (kinds : List Token.Kind) : Prop :=
  ∃ seen u t v, s.Reads seen u ∧ u.Advances t v ∧ t.kind = .eof ∧
    seen.map (·.kind) ++ [.eof] = kinds

theorem Gives.eof {s u : Scanner} {t : Token} (ha : s.Advances t u) (hk : t.kind = .eof) :
    Gives s [.eof] :=
  ⟨[], s, t, u, .refl, ha, hk, rfl⟩

theorem Gives.cons {s u : Scanner} {t : Token} {kinds : List Token.Kind} (ha : s.Advances t u)
    (hk : t.kind ≠ .eof) (h : Gives u kinds) : Gives s (t.kind :: kinds) := by
  obtain ⟨seen, w, last, v, hr, hlast, heof, rfl⟩ := h
  exact ⟨t :: seen, w, last, v, .cons ha hk hr, hlast, heof, rfl⟩

/-- At the end of the text, behind a complete line, the open blocks are closed. -/
theorem gives_end {n : Nat} {s a : Scanner} (ha : s.Arrives a) (hr : a.rest = [])
    (hc : a.current.kind.closesLine = true) (hi : a.indent = 2 * n) :
    Gives s (List.replicate n .dedent ++ [.eof]) := by
  induction n generalizing s a with
  | zero => exact .eof (.eof ha hr hc hi) rfl
  | succ n ih =>
    have hl : a.layout = .inline := Scanner.layout_of_arrives ha
    have hindent : a.indent - indentWidth = 2 * n := by
      rw [indentWidth]
      omega
    refine .cons (.unwind ha hr hc (by omega)) (by simp) (ih (.inline hl) ?_ rfl hindent)
    simp only [Scanner.rest_past, hr, List.dropWhile_nil]

/-- Blanks keep tokens apart. -/
theorem stops_of_blank (kind : Token.Kind) {rest : List UInt8}
    (h : ∀ b ∈ rest.head?, Byte.isBlank b = true) : kind.Stops rest := by
  have hrange (b : UInt8) (hb : b ∈ rest.head?) :
      ((b.toNat = 32 ∨ b.toNat = 9) ∨ b.toNat = 13) ∨ b.toNat = 10 := by
    have hblank := h b hb
    rwa [Byte.isBlank, Bool.or_eq_true, Byte.isInlineBlank_iff, beq_iff_eq, Byte.eq_lineFeed_iff]
      at hblank
  have hword : ∀ b ∈ rest.head?, Byte.isWord b = false := by
    intro b hb
    have := hrange b hb
    rw [← Bool.not_eq_true, Byte.isWord_iff]
    omega
  have hdigit : ∀ b ∈ rest.head?, Byte.isDigit b = false := by
    intro b hb
    have := hrange b hb
    rw [← Bool.not_eq_true, Byte.isDigit_iff]
    omega
  have hequals : rest.head? ≠ some 0x3d := by
    intro hhead
    have := hrange 0x3d hhead
    simp at this
  cases kind with
  | number value => exact hdigit
  | name word => exact hword
  | keyword k => exact hword
  | eof => exact hword
  | mark c => exact fun _ => hequals
  | _ => trivial

/-- A row starts with a token, and not with a blank. -/
theorem Row.starts {kinds : List Token.Kind} {text : List UInt8} (h : Row kinds text)
    (hc : ∀ kind ∈ kinds, kind.isContent = true) :
    ∃ b more, text = b :: more ∧ Byte.isBlank b = false := by
  have hrun {kind : Token.Kind} {run : List UInt8} (hkind : kind.isContent = true)
      (hspelled : kind.Spelled run) : ∃ b more, run = b :: more ∧ Byte.isBlank b = false := by
    have hstops : kind.Stops [] := stops_of_blank kind fun b hb => by cases hb
    obtain ⟨b, more, htext, hb, -⟩ := Lexeme.heads_of_spelled hkind hspelled hstops
    exact ⟨b, more, by rw [← htext, List.append_nil], hb⟩
  cases h with
  | last hspelled => exact hrun (hc _ List.mem_cons_self) hspelled
  | cons hspelled _ _ _ =>
    obtain ⟨b, more, rfl, hb⟩ := hrun (hc _ List.mem_cons_self) hspelled
    exact ⟨b, _, rfl, hb⟩

/-- Only the next byte can make a token longer. -/
theorem stops_cons {kind : Token.Kind} {b : UInt8} {rest : List UInt8} (h : kind.Stops (b :: rest))
    (more : List UInt8) : kind.Stops (b :: more) := by
  cases kind <;> exact h

theorem dropWhile_inline {blanks rest : List UInt8}
    (hblanks : ∀ b ∈ blanks, Byte.isInlineBlank b = true)
    (hrest : ∀ b ∈ rest.head?, Byte.isInlineBlank b = false) :
    (blanks ++ rest).dropWhile Byte.isInlineBlank = rest := by
  rw [List.dropWhile_append_of_pos hblanks]
  cases rest with
  | nil => rfl
  | cons b rest => rw [List.dropWhile_cons, hrest b rfl]; rfl

theorem inline_of_not_blank {b : UInt8} (h : Byte.isBlank b = false) :
    Byte.isInlineBlank b = false := by
  rw [Byte.isBlank, Bool.or_eq_false_iff] at h
  exact h.1

/-- A scanner inside a line, behind a token, with some text left. -/
structure Inside (s : Scanner) (indent : Nat) (rest : List UInt8) : Prop where
  layout : s.layout = .inline
  rest : s.rest = rest
  indent : s.indent = indent
  current : s.current.kind.isContent = true

/-- A token that is written where a scanner arrives is read, and the scanner stands behind it. -/
theorem gives_token {s a : Scanner} {kind : Token.Kind} {run rest : List UInt8}
    {kinds : List Token.Kind} (ha : s.Arrives a) (hr : a.rest = run ++ rest)
    (hc : kind.isContent = true) (hspelled : kind.Spelled run) (hstops : kind.Stops rest)
    (hnext : ∀ u, Inside u a.indent rest → Gives u kinds) : Gives s (kind :: kinds) := by
  obtain ⟨first, more, htext, -, hread⟩ := Lexeme.heads_of_spelled hc hspelled hstops
  rw [htext] at hr
  have hk : (Lexeme.read first more).kind = .ok kind := by rw [hread]
  have hnewline : kind ≠ .newline := by rintro rfl; cases hc
  have heof : kind ≠ .eof := by rintro rfl; cases hc
  refine .cons (.lexeme ha hr hk) heof (hnext _ ⟨if_neg hnewline, ?_, rfl, hc⟩)
  rw [Scanner.behind, hread, hr, ← htext]
  exact List.drop_left

/-- A row that is written where a scanner arrives is read token by token. -/
theorem gives_row {kinds more : List Token.Kind} {text tail : List UInt8} {s a : Scanner}
    (h : Row kinds text) (hc : ∀ kind ∈ kinds, kind.isContent = true) (ha : s.Arrives a)
    (hr : a.rest = text ++ tail) (htail : ∀ b ∈ tail.head?, Byte.isBlank b = true)
    (hnext : ∀ u, Inside u a.indent tail → Gives u more) : Gives s (kinds ++ more) := by
  induction h generalizing s a with
  | @last kind run hspelled =>
    exact gives_token ha hr (hc kind List.mem_cons_self) hspelled (stops_of_blank kind htail) hnext
  | @cons kind kinds run blanks text hspelled hblanks hapart htext ih =>
    have hcs : ∀ k ∈ kinds, k.isContent = true := fun k hk => hc k (List.mem_cons_of_mem kind hk)
    obtain ⟨next, others, hnextByte, hvisible⟩ := htext.starts hcs
    subst hnextByte
    have hstops : kind.Stops (blanks ++ (next :: others) ++ tail) := by
      cases blanks with
      | nil => exact stops_cons (hapart rfl) _
      | cons b blanks =>
        apply stops_of_blank
        rintro c ⟨⟩
        rw [Byte.isBlank, hblanks b List.mem_cons_self, Bool.true_or]
    refine gives_token ha (by rw [hr, List.append_assoc]) (hc kind List.mem_cons_self) hspelled
      hstops ?_
    intro u hu
    apply ih hcs (.inline hu.layout)
    · rw [Scanner.rest_past, hu.rest, List.append_assoc]
      apply dropWhile_inline hblanks
      rintro b ⟨⟩
      exact inline_of_not_blank hvisible
    · intro v hv
      exact hnext v (hu.indent ▸ hv)

/-- The text behind the tokens of a line: blanks, and then the next line or nothing. -/
theorem gives_lineEnd {s : Scanner} {level : Nat} {trailing text : List UInt8}
    {kinds : List Token.Kind} (hs : Inside s (2 * level) (trailing ++ Byte.lineFeed :: text))
    (hblanks : ∀ b ∈ trailing, Byte.isInlineBlank b = true)
    (hnext : ∀ u : Scanner, u.layout = .lineStart → u.rest = text → u.indent = 2 * level →
      u.current.kind = .newline → Gives u kinds) : Gives s (.newline :: kinds) := by
  have ha : s.Arrives (s.past Byte.isInlineBlank) := .inline hs.layout
  have hr : (s.past Byte.isInlineBlank).rest = Byte.lineFeed :: text := by
    rw [Scanner.rest_past, hs.rest]
    apply dropWhile_inline hblanks
    rintro b ⟨⟩
    decide
  have hread := Lexeme.read_lineFeed text
  refine .cons (.lexeme ha hr (by rw [hread])) (by simp) (hnext _ rfl ?_ hs.indent rfl)
  rw [Scanner.behind, hread, hr]
  rfl

/-- A line that ends with the text is ended by it. -/
theorem gives_textEnd {s : Scanner} {level : Nat} {trailing : List UInt8}
    (hs : Inside s (2 * level) trailing)
    (hblanks : ∀ b ∈ trailing, Byte.isInlineBlank b = true) :
    Gives s (.newline :: (List.replicate level .dedent ++ [.eof])) := by
  have ha : s.Arrives (s.past Byte.isInlineBlank) := .inline hs.layout
  have hr : (s.past Byte.isInlineBlank).rest = [] := by
    rw [Scanner.rest_past, hs.rest, ← List.append_nil trailing]
    exact dropWhile_inline hblanks fun b hb => by cases hb
  have hopen : (s.past Byte.isInlineBlank).current.kind.closesLine = false := by
    have hcontent := hs.current
    change s.current.kind.closesLine = false
    cases hk : s.current.kind <;> rw [hk] at hcontent <;> first | rfl | cases hcontent
  refine .cons (.newline ha hr hopen) (by simp) (gives_end (.inline hs.layout) ?_ rfl hs.indent)
  simp only [Scanner.rest_past _ Byte.isInlineBlank] at hr ⊢
  rw [hr, List.dropWhile_nil]

/-- Blocks are closed one by one down to the level of the next line. -/
theorem gives_closed {n level : Nat} {s : Scanner} {kinds : List Token.Kind}
    (hi : s.indent = 2 * (level + n + 1))
    (hnext : ∀ u : Scanner, u.layout = .inline → u.rest = s.rest → u.indent = 2 * level →
      Gives u kinds) :
    Gives (s.closed (2 * level)) (List.replicate n .dedent ++ kinds) := by
  have hindent : s.indent - indentWidth = 2 * (level + n) := by
    rw [indentWidth]
    omega
  induction n generalizing s with
  | zero => exact hnext _ (if_pos hindent) rfl hindent
  | succ n ih =>
    have hlayout : (s.closed (2 * level)).layout = .closing (2 * level) := by
      apply if_neg
      omega
    refine .cons (.close hlayout) (by simp) (ih hindent hnext ?_)
    simp only [Scanner.closed, indentWidth] at *
    omega

/-- A line is read from where the one before it ended: its layout, and then its tokens. -/
theorem gives_line {line : Line} {skipped margin row trailing tail : List UInt8} {previous : Nat}
    {s : Scanner} {more : List Token.Kind} (hline : Sheet line skipped margin row trailing)
    (hlevel : line.level ≤ previous + 1) (hl : s.layout = .lineStart)
    (hi : s.indent = 2 * previous) (hr : s.rest = skipped ++ margin ++ (row ++ tail))
    (htail : ∀ b ∈ tail.head?, Byte.isBlank b = true)
    (hnext : ∀ u, Inside u (2 * line.level) tail → Gives u more) :
    Gives s (List.replicate (line.level - previous) .indent ++
      List.replicate (previous - line.level) .dedent ++ line.kinds ++ more) := by
  obtain ⟨b, others, hrow, hvisible⟩ := hline.tokens.starts line.content
  have hopens : Opens s.rest (2 * line.level) (row ++ tail) := by
    refine ⟨skipped, margin, hr, hline.blankLines.1, hline.blankLines.2, hline.blankMargin,
      hline.spaces.symm, ?_, ?_⟩
    · simp [hrow]
    · rw [hrow]
      rintro c ⟨⟩
      exact hvisible
  obtain ⟨hbody, hne, hspaces⟩ := opens_iff.1 hopens
  have hmargin : s.margin = 2 * line.level := hspaces.symm
  have hrest : s.atMargin.rest = row ++ tail := by rw [Scanner.rest_atMargin, hbody]
  have hrest_ne : s.atMargin.rest ≠ [] := by rw [hrest]; exact hne
  have heven : s.margin % indentWidth = 0 := by
    rw [hmargin, indentWidth]
    omega
  have hinline (u : Scanner) (hul : u.layout = .inline) (hur : u.rest = row ++ tail)
      (hui : u.indent = 2 * line.level) : Gives u (line.kinds ++ more) := by
    have hstay : u.past Byte.isInlineBlank = u := by
      apply Scanner.past_eq_self
      rw [hur, hrow]
      rintro c ⟨⟩
      exact inline_of_not_blank hvisible
    refine gives_row hline.tokens line.content (.inline hul) (by rw [hstay, hur]) htail ?_
    rw [hstay, hui]
    exact hnext
  rcases Nat.lt_trichotomy line.level previous with hlt | heq | hgt
  · obtain ⟨n, hn⟩ : ∃ n, previous - line.level = n + 1 := ⟨previous - line.level - 1, by omega⟩
    rw [Nat.sub_eq_zero_of_le (Nat.le_of_lt hlt), hn, List.append_assoc]
    refine .cons (.dedent hl hrest_ne heven (by omega)) (by simp) ?_
    rw [hmargin]
    apply gives_closed
    · rw [Scanner.indent_atMargin]
      omega
    · intro u hul hur hui
      exact hinline u hul (hur.trans hrest) hui
  · rw [heq, Nat.sub_self]
    refine gives_row hline.tokens line.content (.level hl hrest_ne heven (by omega)) hrest htail ?_
    rw [Scanner.indent_atMargin, hi, ← heq]
    exact hnext
  · have hone : line.level - previous = 1 := by omega
    rw [hone, Nat.sub_eq_zero_of_le (Nat.le_of_lt hgt), List.append_assoc]
    refine .cons (.indent hl hrest_ne heven ?_) (by simp) (hinline _ rfl hrest hmargin)
    rw [hmargin, indentWidth]
    omega

/-- A rendered list of lines is read as its tokens, from the start of a line. -/
theorem gives_rendered {lines : List Line} {text : List UInt8} (h : Rendered lines text)
    {previous : Nat} (hlevels : Levelled previous lines) {s : Scanner}
    (hl : s.layout = .lineStart) (hr : s.rest = text) (hi : s.indent = 2 * previous)
    (hc : s.current.kind = .newline) : Gives s (laidOut previous lines) := by
  induction h generalizing previous s with
  | @nil blanks hblanks =>
    have hrest : s.atMargin.rest = [] := by
      rw [Scanner.rest_atMargin, hr, List.dropWhile_eq_nil_iff]
      exact hblanks
    have hclosed : s.atMargin.current.kind.closesLine = true := by
      change s.current.kind.closesLine = true
      rw [hc]
      rfl
    exact gives_end (.ended hl hrest) hrest hclosed hi
  | @last line skipped margin row trailing hline =>
    refine gives_line hline hlevels.1 hl hi hr ?_ fun u hu => gives_textEnd hu hline.blankEnd
    intro b hb
    rw [Byte.isBlank, hline.blankEnd b (List.mem_of_mem_head? hb), Bool.true_or]
  | @cons line lines skipped margin row trailing text hline _ ih =>
    refine gives_line hline hlevels.1 hl hi hr ?_ ?_
    · cases trailing with
      | nil =>
        rintro b ⟨⟩
        rfl
      | cons c trailing =>
        rintro b ⟨⟩
        rw [Byte.isBlank, hline.blankEnd c List.mem_cons_self, Bool.true_or]
    · intro u hu
      exact gives_lineEnd hu hline.blankEnd fun v hvl hvr hvi hvc => ih hlevels.2 hvl hvr hvi hvc

/-- What a scanner in front of a text gives up to the end are the tokens of the text. -/
theorem tokenize_of_gives {source : String} {kinds : List Token.Kind}
    (h : Gives (Scanner.ofBytes (utf8 source)) kinds) :
    ∃ ts, tokenize source = .ok ts ∧ ts.map (·.kind) = kinds := by
  obtain ⟨seen, u, t, v, hr, ha, hk, rfl⟩ := h
  have hlength := length_le_of_reads hr
  obtain ⟨n, hn⟩ : ∃ n, (utf8 source).length + 2 = seen.length + (n + 1) :=
    ⟨(utf8 source).length + 1 - seen.length, by omega⟩
  have hlast : TokenStream.ofScanner (n + 1) u = ⟨[t], none⟩ := by
    simp only [TokenStream.ofScanner, ha.next_eq, hk, if_true]
  refine ⟨seen ++ [t], ?_, ?_⟩
  · rw [tokenize_eq, hn, TokenStream.ofScanner_of_reads hr, hlast]
  · rw [List.map_append, List.map_singleton, hk]

/-- Reading undoes writing, however the lines were written. -/
theorem tokenize_rendered (lines : List Line) (source : String) (hlevels : Levelled 0 lines)
    (h : Rendered lines (utf8 source)) :
    ∃ ts, tokenize source = .ok ts ∧ ts.map (·.kind) = laidOut 0 lines :=
  tokenize_of_gives (gives_rendered h hlevels rfl rfl rfl rfl)

/-- A block of one line behind its header. -/
def nestedBlock : List Line :=
  [⟨0, [.keyword .ifWord, .name "x", .mark ':'], by simp, by decide⟩,
    ⟨1, [.name "y", .mark '=', .text "a\nb", .equal, .number 7], by simp, by decide⟩]

/-- Blanks wherever they may stand, none where they need not, and a text of two lines. -/
theorem rendered_nestedBlock :
    Rendered nestedBlock (utf8 "if x:\n\r\n \t y='a\nb'==007 \n") := by
  have hblank (blanks : String) (h : (utf8 blanks).all Byte.isInlineBlank = true) :
      ∀ b ∈ utf8 blanks, Byte.isInlineBlank b = true := by
    simpa using h
  have hname (word : String) (hw : Byte.SpellsWord (utf8 word))
      (hk : Keyword.ofSpelling? word = none) (he : word ≠ "eof") :
      (Token.Kind.name word).Spelled (utf8 word) :=
    ⟨rfl, hw, Keyword.ofSpelling?_eq_none.1 hk, he⟩
  have hheader : Row [.keyword .ifWord, .name "x", .mark ':']
      (utf8 "if" ++ (utf8 " " ++ (utf8 "x" ++ (utf8 "" ++ utf8 ":")))) := by
    refine .cons rfl (hblank " " (by decide)) (fun h => absurd h (by decide)) ?_
    refine .cons (hname "x" (by decide) (by decide) (by decide)) (hblank "" (by decide)) ?_ ?_
    · change _ → ∀ b ∈ (utf8 ":").head?, Byte.isWord b = false
      decide +kernel
    · exact .last ⟨0x3a, rfl, rfl, rfl⟩
  have hbody : Row [.name "y", .mark '=', .text "a\nb", .equal, .number 7]
      (utf8 "y" ++ (utf8 "" ++ (utf8 "=" ++ (utf8 "" ++ (utf8 "'a\nb'" ++
        (utf8 "" ++ (utf8 "==" ++ (utf8 "" ++ utf8 "007")))))))) := by
    refine .cons (hname "y" (by decide) (by decide) (by decide)) (hblank "" (by decide)) ?_ ?_
    · change _ → ∀ b ∈ (utf8 "=" ++ _).head?, Byte.isWord b = false
      decide +kernel
    refine .cons ⟨0x3d, rfl, rfl, rfl⟩ (hblank "" (by decide)) (fun _ _ => by decide) ?_
    refine .cons ⟨0x27, rfl, by decide, rfl⟩ (hblank "" (by decide)) (fun _ => trivial) ?_
    refine .cons rfl (hblank "" (by decide)) (fun _ => trivial) ?_
    exact .last ⟨by decide, by decide +kernel, by decide⟩
  have hfirst : Sheet nestedBlock[0] [] [] _ [] :=
    ⟨⟨by simp, Or.inl rfl⟩, by simp, rfl, hheader, by simp⟩
  have hsecond : Sheet nestedBlock[1] (utf8 "\r\n") (utf8 " \t ") _ (utf8 " ") :=
    ⟨⟨by decide +kernel, Or.inr (by decide)⟩, hblank " \t " (by decide), by decide, hbody,
      hblank " " (by decide)⟩
  have hrendered := Rendered.cons hfirst (.cons hsecond (@Rendered.nil [] (by simp)))
  exact hrendered

theorem tokenize_rendered_nestedBlock :
    ∃ ts, tokenize "if x:\n\r\n \t y='a\nb'==007 \n" = .ok ts ∧
      ts.map (·.kind) = laidOut 0 nestedBlock :=
  tokenize_rendered nestedBlock _ (by simp [Levelled, nestedBlock]) rendered_nestedBlock

end Rendering

end Mython
