import Mython.Proofs.Token.Layout

namespace Mython

namespace TokenStream

theorem ofScanner_of_reads {s u : Scanner} {seen : List Token} (h : s.Reads seen u) (n : Nat) :
    ofScanner (seen.length + n) s = ⟨seen ++ (ofScanner n u).tokens, (ofScanner n u).fault⟩ := by
  induction h generalizing n with
  | refl => simp
  | @snoc seen t u v _ ha hk ih =>
    have hstep : ofScanner (n + 1) u =
        ⟨t :: (ofScanner n v).tokens, (ofScanner n v).fault⟩ := by
      simp only [ofScanner, ha.next_eq, hk, if_false]
    have hlen : (seen ++ [t]).length + n = seen.length + (n + 1) := by
      simp only [List.length_append, List.length_singleton]
      omega
    rw [hlen, ih (n + 1), hstep, List.append_assoc]
    rfl

end TokenStream

namespace Layout

open Margin

/-- What scanners have to do with the stages of reading a text: between lines one stands at the line
start, inside a line one is about to give the next lexeme. -/
def Reached (bytes : List UInt8) (rest : List UInt8) : Stage → Prop
  | .between previous => ∃ seen s, (Scanner.ofBytes bytes).Reads seen s ∧ s.layout = .lineStart ∧
      s.rest = rest ∧ s.indent = previous
  | .inside spaces => ∃ seen s, (Scanner.ofBytes bytes).Reads seen s ∧
      ∀ first more, rest.dropWhile Byte.isInlineBlank = first :: more →
        ∃ a, s.Arrives a ∧ a.rest = first :: more ∧ a.indent = spaces

theorem reached_of_inline {bytes : List UInt8} {seen : List Token} {s : Scanner}
    (hr : (Scanner.ofBytes bytes).Reads seen s) (hl : s.layout = .inline) :
    Reached bytes s.rest (.inside s.indent) := by
  refine ⟨seen, s, hr, fun first more hd => ⟨s.past Byte.isInlineBlank, .inline hl, ?_, rfl⟩⟩
  rw [Scanner.rest_past, hd]

/-- A scanner that has to close blocks gets to the line in front of which it does. -/
theorem reached_of_closed {bytes : List UInt8} (levels : Nat) {seen : List Token} {s : Scanner}
    {target : Nat} (hr : (Scanner.ofBytes bytes).Reads seen s)
    (hi : s.indent = target + indentWidth * levels)
    (hl : s.layout = if s.indent = target then .inline else .closing target) :
    Reached bytes s.rest (.inside target) := by
  induction levels generalizing seen s with
  | zero =>
    have he : s.indent = target := by simpa using hi
    rw [if_pos he] at hl
    have h := reached_of_inline hr hl
    rwa [he] at h
  | succ levels ih =>
    have hne : s.indent ≠ target := by
      rw [hi]
      simp only [indentWidth]
      omega
    rw [if_neg hne] at hl
    -- One request closes one block; the induction is on how many are still to be closed.
    have hread : (Scanner.ofBytes bytes).Reads (seen ++ [⟨.dedent, s.pos⟩]) (s.closed target) :=
      .snoc hr (.close hl) (by simp)
    have hi' : (s.closed target).indent = target + indentWidth * levels := by
      simp only [Scanner.closed, hi, indentWidth]
      omega
    have h := ih hread hi' rfl
    exact h

theorem even_levels {target indent : Nat} (ht : target % indentWidth = 0)
    (hi : indent % indentWidth = 0) (hlt : target < indent) :
    ∃ levels, indent - indentWidth = target + indentWidth * levels := by
  simp only [indentWidth] at *
  exact ⟨(indent - target) / 2 - 1, by omega⟩

theorem reached_line {bytes rest body : List UInt8} {previous spaces : Nat}
    (h : Reached bytes rest (.between previous)) (ho : Opens rest spaces body)
    (heven : spaces % indentWidth = 0) (hle : spaces ≤ previous + indentWidth) :
    Reached bytes body (.inside spaces) := by
  obtain ⟨seen, s, hr, hl, rfl, rfl⟩ := h
  obtain ⟨rfl, hne, rfl⟩ := opens_iff.mp ho
  have hlaid := laid_of_reads hr
  have hi := hlaid.even
  have hne' : s.atMargin.rest ≠ [] := by rwa [Scanner.rest_atMargin]
  have hmargin : s.margin = Scanner.spaces (s.rest.takeWhile Byte.isBlank) := rfl
  rw [← hmargin] at heven hle ⊢
  rcases Nat.lt_trichotomy s.margin s.indent with hlt | heq | hgt
  · obtain ⟨levels, hlevels⟩ := even_levels heven hi hlt
    have h := reached_of_closed levels (.snoc hr (.dedent hl hne' heven hlt) (by simp)) hlevels rfl
    simpa only [Scanner.closed, Scanner.rest_atMargin] using h
  · refine ⟨seen, s, hr, fun first more hd => ?_⟩
    rw [(not_inline_of_not_blank Scanner.head?_dropWhile_false).1] at hd
    exact ⟨s.atMargin, .level hl hne' heven heq, by rw [Scanner.rest_atMargin, hd], heq.symm⟩
  · have heq : s.margin = s.indent + indentWidth := by
      simp only [indentWidth] at *
      omega
    have h := reached_of_inline (.snoc hr (.indent hl hne' heven heq) (by simp)) rfl
    simpa only [Scanner.rest_atMargin] using h

/-- A scanner gets wherever reading gets without a fault. -/
theorem reached_of_gets {bytes rest : List UInt8} {stage : Stage} (h : Gets bytes stage rest) :
    Reached bytes rest stage := by
  induction h with
  | start => exact ⟨[], _, .refl, rfl, rfl, rfl⟩
  | line _ ho heven hle ih => exact reached_line ih ho heven hle
  | @token spaces rest more first kind _ hr hk hc ih =>
    obtain ⟨seen, s, hread, hready⟩ := ih
    obtain ⟨a, ha, hrest, rfl⟩ := hready first more hr
    have he : kind ≠ .eof := by rintro rfl; cases hc
    have hn : kind ≠ .newline := by rintro rfl; cases hc
    have h := reached_of_inline (.snoc hread (.lexeme ha hrest hk) he)
      (by simp only [Scanner.behind, hn, if_false])
    simpa only [Scanner.behind, hrest] using h
  | @ending spaces rest more _ hr ih =>
    obtain ⟨seen, s, hread, hready⟩ := ih
    obtain ⟨a, ha, hrest, rfl⟩ := hready Byte.lineFeed more hr
    have hk : (Lexeme.read Byte.lineFeed more).kind = .ok .newline := by
      rw [Lexeme.read_lineFeed]
    refine ⟨_, _, .snoc hread (.lexeme ha hrest hk) (by simp), rfl, ?_, rfl⟩
    simp only [Scanner.behind, hrest, Lexeme.read_lineFeed, List.drop_one, List.tail_cons]

/-- A line breaks the layout exactly where a scanner refuses its margin. -/
theorem fails_of_breaks {s : Scanner} (hl : s.layout = .lineStart) (hr : s.atMargin.rest ≠ [])
    (hb : BreaksLayout s.indent s.margin) : ∃ e, s.Fails e ∧ e.code = "L004" := by
  by_cases heven : s.margin % indentWidth = 0
  · have hlt : s.indent + indentWidth < s.margin := hb.resolve_left (not_not_intro heven)
    refine ⟨_, .deep hl hr heven ?_ (Nat.ne_of_gt hlt), rfl⟩
    simp only [indentWidth] at hlt
    omega
  · exact ⟨_, .broken hl hr heven, rfl⟩

theorem breaks_of_fails {s : Scanner} {e : SyntaxError} (h : s.Fails e) (hc : e.code = "L004")
    (hi : s.indent % indentWidth = 0) :
    s.layout = .lineStart ∧ s.atMargin.rest ≠ [] ∧ BreaksLayout s.indent s.margin := by
  cases h with
  | broken hl hr hodd => exact ⟨hl, hr, Or.inl hodd⟩
  | deep hl hr heven hlt hne =>
    refine ⟨hl, hr, Or.inr ?_⟩
    simp only [indentWidth] at *
    omega
  | @lexeme a first rest cause ha hr hk =>
    exfalso
    by_cases hf : first = Byte.lineFeed
    · rw [hf, Lexeme.read_lineFeed] at hk
      cases hk
    · have hin := Lexeme.read_inline hf rest
      rw [hk] at hin
      exact hin hc

/-- The tokens of a text, laid out by its margins. The end of the text has the place behind all
bytes, which the word for the end never has. -/
structure WellLaid (bytes : List UInt8) (ts : List Token) : Prop where
  /-- At every content token, two spaces for each open block. -/
  margin : ∀ before t after, ts = before ++ t :: after → t.kind.isContent = true →
    2 * ((indents before : Int) - dedents before) = spacesAt bytes (lineHead before t).pos.line
  /-- No more blocks are closed than opened. -/
  balance : ∀ before after, ts = before ++ after → dedents before ≤ indents before
  /-- At the end of the text all of them have been closed. -/
  closed : ∀ last, ts.getLast? = some last → last.pos = Position.start.afterAll bytes →
    indents ts = dedents ts
  indent : ∀ before t after, ts = before ++ t :: after → t.kind = .indent →
    before = [] ∨ ∃ p, before.getLast? = some p ∧ p.kind = .newline
  dedent : ∀ before t after, ts = before ++ t :: after → t.kind = .dedent →
    ∃ p, before.getLast? = some p ∧ (p.kind = .newline ∨ p.kind = .dedent)
  newline : ∀ before t after, ts = before ++ t :: after → t.kind = .newline →
    ∃ p, before.getLast? = some p ∧ p.kind.isContent = true

theorem lastKind_of_ne (before : List Token) (h : before ≠ []) :
    ∃ p, before.getLast? = some p ∧ lastKind before = p.kind := by
  have hlast := List.getLast?_eq_some_getLast h
  exact ⟨_, hlast, by simp [lastKind, hlast]⟩

/-- What every single token fits into is laid out well as a whole. -/
theorem wellLaid_of_fits {bytes : List UInt8} {ts : List Token} {last : Token}
    (hfits : ∀ before t after, ts ++ [last] = before ++ t :: after → Fits bytes before t)
    (hlast : last.kind = .eof)
    (hclosed : last.pos = Position.start.afterAll bytes → dedents ts = indents ts) :
    WellLaid bytes (ts ++ [last]) where
  margin before t after he hk := by
    have h := (hfits before t after he).content hk
    omega
  balance before after he := by
    cases after with
    | cons t after => exact (hfits before t after he).balance
    | nil =>
      rw [List.append_nil] at he
      subst he
      have h := (hfits ts last [] rfl).balance
      simpa [hlast] using h
  closed l hl hp := by
    rw [List.getLast?_concat, Option.some.injEq] at hl
    subst hl
    simpa [hlast] using (hclosed hp).symm
  indent before t after he hk := by
    rcases List.eq_nil_or_concat before with hn | ⟨front, p, hp⟩
    · exact Or.inl hn
    · have h := (hfits before t after he).indent hk
      rw [hp, List.concat_eq_append, lastKind_snoc] at h
      exact Or.inr ⟨p, by simp [hp], h⟩
  dedent before t after he hk := by
    obtain ⟨h, hlt⟩ := (hfits before t after he).dedent hk
    obtain ⟨p, hp, hkind⟩ := lastKind_of_ne before (by rintro rfl; simp [indents] at hlt)
    rw [hkind] at h
    exact ⟨p, hp, h⟩
  newline before t after he hk := by
    have h := (hfits before t after he).newline hk
    obtain ⟨p, hp, hkind⟩ := lastKind_of_ne before (by rintro rfl; cases h)
    rw [hkind] at h
    exact ⟨p, hp, h⟩

theorem tokenize_eq (source : String) :
    tokenize source =
      match (TokenStream.ofScanner ((utf8 source).length + 2)
        (Scanner.ofBytes (utf8 source))).fault with
      | some e => .error e
      | none => .ok (TokenStream.ofScanner ((utf8 source).length + 2)
        (Scanner.ofBytes (utf8 source))).tokens := rfl

theorem wellLaid_of_tokenize {source : String} {ts : List Token}
    (h : tokenize source = .ok ts) : WellLaid (utf8 source) ts := by
  obtain ⟨seen, u, hr, hcases⟩ :=
    TokenStream.ofScanner_cases ((utf8 source).length + 2) (Scanner.ofBytes (utf8 source))
  have hlaid := laid_of_reads hr
  rw [tokenize_eq] at h
  rcases hcases with ⟨last, v, he, ha, hk⟩ | ⟨e, he, -⟩ | ⟨he, -⟩
  · rw [he] at h
    cases h
    exact wellLaid_of_fits (fits_snoc hlaid.fits (hlaid.fits_eof hk)) hk (hlaid.closed_of_eof ha hk)
  · rw [he] at h
    cases h
  · rw [he] at h
    cases h

/-- The first error is one of layout exactly when reading gets to a line that breaks it. -/
theorem tokenize_layout_error_iff (source : String) :
    (∃ e, tokenize source = .error e ∧ e.code = "L004") ↔
      ∃ previous rest spaces body, Gets (utf8 source) (.between previous) rest ∧
        Opens rest spaces body ∧ BreaksLayout previous spaces := by
  constructor
  · rintro ⟨e, he, hc⟩
    obtain ⟨seen, u, hr, hcases⟩ :=
      TokenStream.ofScanner_cases ((utf8 source).length + 2) (Scanner.ofBytes (utf8 source))
    have hlaid := laid_of_reads hr
    rw [tokenize_eq] at he
    rcases hcases with ⟨last, v, hstream, -, -⟩ | ⟨e', hstream, hf⟩ | ⟨hstream, -⟩
    · rw [hstream] at he
      cases he
    · rw [hstream] at he
      cases he
      obtain ⟨hl, hne, hb⟩ := breaks_of_fails hf hc hlaid.even
      exact ⟨u.indent, u.rest, u.margin, u.atMargin.rest, (hlaid.lineStart hl).2.2.2,
        opens_atMargin hne, hb⟩
    · rw [hstream] at he
      cases he
      simp [SyntaxError.code, SyntaxError.Cause.code] at hc
  · rintro ⟨previous, rest, spaces, body, hg, ho, hb⟩
    obtain ⟨seen, s, hr, hl, rfl, rfl⟩ := reached_of_gets hg
    obtain ⟨rfl, hne, rfl⟩ := opens_iff.mp ho
    obtain ⟨e, hf, hc⟩ := fails_of_breaks hl (by rwa [Scanner.rest_atMargin]) hb
    have hlaid := laid_of_reads hr
    have hbudget := hlaid.budget (by intro hn; simp [hn] at hne)
    obtain ⟨n, hn⟩ : ∃ n, (utf8 source).length + 2 = seen.length + (n + 1) :=
      ⟨(utf8 source).length + 1 - seen.length, by omega⟩
    obtain ⟨s', hnext⟩ := hf.next_eq
    have hstream : TokenStream.ofScanner (n + 1) s = ⟨[], some e⟩ := by
      simp only [TokenStream.ofScanner, hnext]
    refine ⟨e, ?_, hc⟩
    rw [tokenize_eq, hn, TokenStream.ofScanner_of_reads hr, hstream]

/-- Layout is decided by leading spaces alone, whether a text has tokens or is refused for it. -/
theorem layout_by_leading_spaces (source : String) :
    (∀ ts, tokenize source = .ok ts → WellLaid (utf8 source) ts) ∧
      ((∃ e, tokenize source = .error e ∧ e.code = "L004") ↔
        ∃ previous rest spaces body, Gets (utf8 source) (.between previous) rest ∧
          Opens rest spaces body ∧ BreaksLayout previous spaces) :=
  ⟨fun _ h => wellLaid_of_tokenize h, tokenize_layout_error_iff source⟩

/-- A block behind a tab, a text over two lines, and a line that leaves the block. -/
theorem layout_of_nested_block :
    ∃ ts, tokenize "if x:\n \t y = 'a\nb'\nz" = .ok ts ∧
      WellLaid (utf8 "if x:\n \t y = 'a\nb'\nz") ts := by
  have hok : (tokenize "if x:\n \t y = 'a\nb'\nz").toBool = true := by decide +kernel
  cases ht : tokenize "if x:\n \t y = 'a\nb'\nz" with
  | error e =>
    rw [ht] at hok
    cases hok
  | ok ts => exact ⟨ts, rfl, (layout_by_leading_spaces _).1 ts ht⟩

end Layout

end Mython
