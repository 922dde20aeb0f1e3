import Mathlib.Data.List.DropRight
import Mython.Proofs.Token.Margin

/-! Layout follows from margins alone. The invariant `Laid` says where a scanner is in its line, and
every request keeps it. -/

namespace Mython

namespace Layout

open Margin

/-- How many blocks have been opened. -/
def indents (ts : List Token) : Nat := ts.countP fun t => t.kind = .indent

/-- How many blocks have been closed. -/
def dedents (ts : List Token) : Nat := ts.countP fun t => t.kind = .dedent

/-- The content of the logical line that is open behind some tokens. -/
def openLine (seen : List Token) : List Token :=
  (seen.rtakeWhile fun t => t.kind ≠ .newline).filter fun t => t.kind.isContent

/-- The token with which the logical line of `t` starts, where `t` follows `before`. -/
def lineHead (before : List Token) (t : Token) : Token := (openLine before).head?.getD t

/-- The kind of the last token; in front of the first one a line has ended. -/
def lastKind (seen : List Token) : Token.Kind := (seen.getLast?.map (·.kind)).getD .newline

@[simp]
theorem indents_snoc (seen : List Token) (t : Token) :
    indents (seen ++ [t]) = indents seen + if t.kind = .indent then 1 else 0 := by
  simp [indents, List.countP_append, List.countP_singleton]

@[simp]
theorem dedents_snoc (seen : List Token) (t : Token) :
    dedents (seen ++ [t]) = dedents seen + if t.kind = .dedent then 1 else 0 := by
  simp [dedents, List.countP_append, List.countP_singleton]

@[simp]
theorem lastKind_snoc (seen : List Token) (t : Token) : lastKind (seen ++ [t]) = t.kind := by
  simp [lastKind]

theorem openLine_newline (seen : List Token) {t : Token} (h : t.kind = .newline) :
    openLine (seen ++ [t]) = [] := by
  simp [openLine, h]

theorem openLine_content (seen : List Token) {t : Token} (h : t.kind.isContent = true) :
    openLine (seen ++ [t]) = openLine seen ++ [t] := by
  have hn : t.kind ≠ .newline := fun hn => by rw [hn] at h; cases h
  simp [openLine, hn, h]

theorem openLine_layout (seen : List Token) {t : Token} (h : t.kind = .indent ∨ t.kind = .dedent) :
    openLine (seen ++ [t]) = openLine seen := by
  rcases h with h | h
  · simp [openLine, h, Token.Kind.isContent]
  · simp [openLine, h, Token.Kind.isContent]

/-- What layout asks of a token that follows others. -/
structure Fits (bytes : List UInt8) (before : List Token) (t : Token) : Prop where
  balance : dedents before ≤ indents before
  content : t.kind.isContent = true →
    2 * indents before = 2 * dedents before + spacesAt bytes (lineHead before t).pos.line
  indent : t.kind = .indent → lastKind before = .newline
  dedent : t.kind = .dedent →
    (lastKind before = .newline ∨ lastKind before = .dedent) ∧ dedents before < indents before
  newline : t.kind = .newline → (lastKind before).isContent = true

/-- A scanner at a known place of a text. -/
structure Located (bytes done : List UInt8) (s : Scanner) : Prop where
  split : bytes = done ++ s.rest
  pos : s.pos = Position.start.afterAll done

theorem Located.past {bytes done : List UInt8} {s : Scanner} (h : Located bytes done s)
    (p : UInt8 → Bool) : Located bytes (done ++ s.rest.takeWhile p) (s.past p) where
  split := by
    rw [Scanner.rest_past, List.append_assoc, List.takeWhile_append_dropWhile]
    exact h.split
  pos := by rw [Scanner.pos_past, h.pos, Position.afterAll_append]

theorem Located.atMargin {bytes done : List UInt8} {s : Scanner} (h : Located bytes done s) :
    Located bytes (done ++ s.rest.takeWhile Byte.isBlank) s.atMargin :=
  ⟨(h.past Byte.isBlank).split, (h.past Byte.isBlank).pos⟩

theorem Located.behind {bytes done : List UInt8} {s : Scanner} (h : Located bytes done s)
    (length : Nat) (kind : Token.Kind) :
    Located bytes (done ++ s.rest.take length) (s.behind length kind) where
  split := by
    simp only [Scanner.behind, List.append_assoc, List.take_append_drop]
    exact h.split
  pos := by simp only [Scanner.behind, h.pos, Position.afterAll_append]

/-- In front of a line the spaces of its margin are those that the scanner counts. -/
theorem Located.spacesAt_atMargin {bytes done : List UInt8} {s : Scanner}
    (h : Located bytes done s) (hd : EndsLine done) :
    spacesAt bytes s.atMargin.pos.line = s.margin := by
  obtain ⟨skipped, margin, he, hs, hm⟩ :=
    blanks_split (s.rest.takeWhile Byte.isBlank) fun _ hb => List.mem_takeWhile_imp hb
  have hbytes : bytes = done ++ skipped ++ margin ++ s.atMargin.rest := by
    rw [h.atMargin.split, he]
    simp
  have hpos : s.atMargin.pos = Position.start.afterAll (done ++ skipped ++ margin) := by
    rw [h.atMargin.pos, he, List.append_assoc]
  rw [hbytes, hpos, spacesAt_afterAll (hd.append hs) hm s.atMargin_not_blank, Scanner.margin, he,
    spaces_append_inline skipped hm, spaces_of_endsLine hs, Nat.zero_add]

/-- Where a scanner is: in front of a line, closing blocks in front of one, behind the last such
block, inside a line, or behind the text. -/
inductive Phase (bytes : List UInt8) (seen : List Token) (s : Scanner) : Prop
  | lineStart {done : List UInt8} (hs : Located bytes done s) (hl : s.layout = .lineStart)
      (hd : EndsLine done) (hc : s.current.kind = .newline) (ho : openLine seen = [])
      (hg : Gets bytes (.between s.indent) s.rest)
  | closing {done : List UInt8} {target : Nat} (hs : Located bytes done s)
      (hl : s.layout = .closing target) (hc : s.current.kind = .dedent)
      (hlt : target < s.indent) (heven : target % indentWidth = 0) (hr : s.rest ≠ [])
      (hb : ∀ b ∈ s.rest.head?, Byte.isBlank b = false) (hm : spacesAt bytes s.pos.line = target)
      (ho : openLine seen = []) (hg : Gets bytes (.inside target) s.rest)
  | opened {done : List UInt8} (hs : Located bytes done s) (hl : s.layout = .inline)
      (hc : s.current.kind = .indent ∨ s.current.kind = .dedent) (hr : s.rest ≠ [])
      (hb : ∀ b ∈ s.rest.head?, Byte.isBlank b = false)
      (hm : spacesAt bytes s.pos.line = s.indent) (ho : openLine seen = [])
      (hg : Gets bytes (.inside s.indent) s.rest)
  | inside {done : List UInt8} {head : Token} (hs : Located bytes done s) (hl : s.layout = .inline)
      (hc : s.current.kind.isContent = true) (ho : (openLine seen).head? = some head)
      (hm : spacesAt bytes head.pos.line = s.indent) (hg : Gets bytes (.inside s.indent) s.rest)
  | ended (hs : Located bytes bytes s) (hl : s.layout = .inline) (hr : s.rest = [])
      (hc : s.current.kind = .newline ∨ s.current.kind = .dedent)

/-- The state of a scanner that has read some tokens of a text. Every token takes a byte or closes a
block, and every block was opened by two bytes, so the tokens are no more than the bytes. -/
structure Laid (bytes : List UInt8) (seen : List Token) (s : Scanner) : Prop where
  phase : Phase bytes seen s
  last : lastKind seen = s.current.kind
  level : 2 * dedents seen + s.indent = 2 * indents seen
  budget : s.rest ≠ [] → 2 * seen.length + s.indent + 2 * s.rest.length ≤ 2 * bytes.length
  fits : ∀ before t after, seen = before ++ t :: after → Fits bytes before t

theorem laid_ofBytes (bytes : List UInt8) : Laid bytes [] (Scanner.ofBytes bytes) where
  phase :=
    .lineStart (⟨rfl, rfl⟩ : Located bytes [] _) rfl (Or.inl rfl) rfl rfl .start
  last := rfl
  level := rfl
  budget := by simp [Scanner.ofBytes]
  fits := by simp

theorem fits_snoc {bytes : List UInt8} {seen : List Token} {t : Token}
    (hs : ∀ before u after, seen = before ++ u :: after → Fits bytes before u)
    (ht : Fits bytes seen t) :
    ∀ before u after, seen ++ [t] = before ++ u :: after → Fits bytes before u := by
  intro before u after he
  rcases List.eq_nil_or_concat after with rfl | ⟨front, v, rfl⟩
  · obtain ⟨rfl, hu⟩ := List.append_inj' he rfl
    cases hu
    exact ht
  · rw [List.concat_eq_append, ← List.cons_append, ← List.append_assoc] at he
    obtain ⟨rfl, -⟩ := List.append_inj' he rfl
    exact hs before u front rfl

/-- A scanner in front of the first token of a line with `target` spaces, some blocks too deep. -/
structure Closing (bytes : List UInt8) (seen : List Token) (target : Nat) (s : Scanner) : Prop where
  located : ∃ done, Located bytes done s
  lt : target < s.indent
  even : target % indentWidth = 0
  rest_ne : s.rest ≠ []
  not_blank : ∀ b ∈ s.rest.head?, Byte.isBlank b = false
  margin : spacesAt bytes s.pos.line = target
  fresh : openLine seen = []
  gets : Gets bytes (.inside target) s.rest

theorem Closing.phase {bytes : List UInt8} {seen : List Token} {target : Nat} {s : Scanner}
    (h : Closing bytes seen target s) (hi : s.indent % indentWidth = 0) :
    Phase bytes (seen ++ [⟨.dedent, s.pos⟩]) (s.closed target) := by
  obtain ⟨done, hs⟩ := h.located
  have hs' : Located bytes done (s.closed target) := ⟨hs.split, hs.pos⟩
  have ho : openLine (seen ++ [⟨.dedent, s.pos⟩]) = [] := by
    rw [openLine_layout seen (Or.inr rfl), h.fresh]
  by_cases he : s.indent - indentWidth = target
  · refine .opened hs' (if_pos he) (Or.inr rfl) h.rest_ne h.not_blank ?_ ho ?_
    · exact h.margin.trans he.symm
    · simpa only [Scanner.closed, he] using h.gets
  · refine .closing hs' (if_neg he) rfl ?_ h.even h.rest_ne h.not_blank h.margin ho h.gets
    have hlt := h.lt
    have heven := h.even
    simp only [Scanner.closed, indentWidth] at *
    omega

theorem Laid.even {bytes : List UInt8} {seen : List Token} {s : Scanner} (h : Laid bytes seen s) :
    s.indent % indentWidth = 0 := by
  have hl := h.level
  simp only [indentWidth]
  omega

theorem Laid.balance {bytes : List UInt8} {seen : List Token} {s : Scanner}
    (h : Laid bytes seen s) : dedents seen ≤ indents seen := by
  have hl := h.level
  omega

theorem Laid.fits_dedent {bytes : List UInt8} {seen : List Token} {s : Scanner} {t : Token}
    (h : Laid bytes seen s) (ht : t.kind = .dedent) (hi : 0 < s.indent)
    (hc : s.current.kind = .newline ∨ s.current.kind = .dedent) : Fits bytes seen t where
  balance := h.balance
  content hk := by rw [ht] at hk; cases hk
  indent hk := by rw [ht] at hk; cases hk
  dedent _ := by
    have hl := h.level
    rw [h.last]
    exact ⟨hc, by omega⟩
  newline hk := by rw [ht] at hk; cases hk

/-- A scanner in front of a line, as a scanner in front of its first token. -/
theorem Laid.lineStart {bytes : List UInt8} {seen : List Token} {s : Scanner}
    (h : Laid bytes seen s) (hl : s.layout = .lineStart) :
    (∃ done, Located bytes done s ∧ EndsLine done) ∧ s.current.kind = .newline ∧
      openLine seen = [] ∧ Gets bytes (.between s.indent) s.rest := by
  cases h.phase with
  | lineStart hs _ hd hc ho hg => exact ⟨⟨_, hs, hd⟩, hc, ho, hg⟩
  | closing _ hl' => rw [hl] at hl'; cases hl'
  | opened _ hl' => rw [hl] at hl'; cases hl'
  | inside _ hl' => rw [hl] at hl'; cases hl'
  | ended _ hl' => rw [hl] at hl'; cases hl'

theorem Laid.closing {bytes : List UInt8} {seen : List Token} {s : Scanner} {target : Nat}
    (h : Laid bytes seen s) (hl : s.layout = .closing target) :
    s.current.kind = .dedent ∧ Closing bytes seen target s := by
  cases h.phase with
  | lineStart _ hl' => rw [hl] at hl'; cases hl'
  | closing hs hl' hc hlt heven hr hb hm ho hg =>
    rw [hl] at hl'
    cases hl'
    exact ⟨hc, ⟨_, hs⟩, hlt, heven, hr, hb, hm, ho, hg⟩
  | opened _ hl' => rw [hl] at hl'; cases hl'
  | inside _ hl' => rw [hl] at hl'; cases hl'
  | ended _ hl' => rw [hl] at hl'; cases hl'

theorem margin_le_length (s : Scanner) :
    s.margin ≤ (s.rest.takeWhile Byte.isBlank).length := by
  obtain ⟨skipped, margin, he, hs, hm⟩ :=
    blanks_split (s.rest.takeWhile Byte.isBlank) fun _ hb => List.mem_takeWhile_imp hb
  rw [Scanner.margin, he, spaces_append_inline skipped hm, spaces_of_endsLine hs,
    List.length_append]
  have hcount : margin.count Byte.space ≤ margin.length := List.count_le_length
  omega

theorem length_atMargin (s : Scanner) :
    s.rest.length = (s.rest.takeWhile Byte.isBlank).length + s.atMargin.rest.length := by
  rw [Scanner.rest_atMargin, ← List.length_append, List.takeWhile_append_dropWhile]

theorem Laid.step_close {bytes : List UInt8} {seen : List Token} {s : Scanner} {target : Nat}
    (h : Laid bytes seen s) (hl : s.layout = .closing target) :
    Laid bytes (seen ++ [⟨.dedent, s.pos⟩]) (s.closed target) := by
  obtain ⟨hc, hcl⟩ := h.closing hl
  have hlt := hcl.lt
  have heven := h.even
  have hlevel := h.level
  refine ⟨hcl.phase h.even, by simp [Scanner.closed], ?_, ?_, fits_snoc h.fits ?_⟩
  · simp only [dedents_snoc, indents_snoc, Scanner.closed, indentWidth, reduceCtorEq, if_true,
      if_false] at *
    omega
  · intro hr
    have hb := h.budget hr
    simp only [Scanner.closed, List.length_append, List.length_singleton, indentWidth] at *
    omega
  · exact h.fits_dedent rfl (Nat.zero_lt_of_lt hlt) (Or.inr hc)

theorem opens_atMargin {s : Scanner} (hr : s.atMargin.rest ≠ []) :
    Opens s.rest s.margin s.atMargin.rest :=
  opens_iff.mpr ⟨s.rest_atMargin, hr, rfl⟩

theorem Laid.step_dedent {bytes : List UInt8} {seen : List Token} {s : Scanner}
    (h : Laid bytes seen s) (hl : s.layout = .lineStart) (hr : s.atMargin.rest ≠ [])
    (heven : s.margin % indentWidth = 0) (hlt : s.margin < s.indent) :
    Laid bytes (seen ++ [⟨.dedent, s.atMargin.pos⟩]) (s.atMargin.closed s.margin) := by
  obtain ⟨⟨done, hs, hd⟩, hc, ho, hg⟩ := h.lineStart hl
  have hcl : Closing bytes seen s.margin s.atMargin :=
    { located := ⟨_, hs.atMargin⟩
      lt := hlt
      even := heven
      rest_ne := hr
      not_blank := s.atMargin_not_blank
      margin := hs.spacesAt_atMargin hd
      fresh := ho
      gets := .line hg (opens_atMargin hr) heven (by simp only [indentWidth]; omega) }
  have hi := h.even
  have hlevel := h.level
  refine ⟨hcl.phase h.even, by simp [Scanner.closed], ?_, ?_, fits_snoc h.fits ?_⟩
  · simp only [dedents_snoc, indents_snoc, Scanner.closed, Scanner.indent_atMargin, indentWidth,
      reduceCtorEq, if_true, if_false] at *
    omega
  · intro _
    have hne : s.rest ≠ [] := by
      intro hn
      simp [hn] at hr
    have hb := h.budget hne
    have hlen := length_atMargin s
    simp only [Scanner.closed, Scanner.indent_atMargin, List.length_append, List.length_singleton,
      indentWidth] at *
    omega
  · exact h.fits_dedent rfl (Nat.zero_lt_of_lt hlt) (Or.inl hc)

theorem Laid.step_indent {bytes : List UInt8} {seen : List Token} {s : Scanner}
    (h : Laid bytes seen s) (hl : s.layout = .lineStart) (hr : s.atMargin.rest ≠ [])
    (heven : s.margin % indentWidth = 0) (heq : s.margin = s.indent + indentWidth) :
    Laid bytes (seen ++ [⟨.indent, s.atMargin.pos⟩])
      { s.atMargin with indent := s.margin, current := ⟨.indent, s.atMargin.pos⟩ } := by
  obtain ⟨⟨done, hs, hd⟩, hc, ho, hg⟩ := h.lineStart hl
  have hi := h.even
  have hlevel := h.level
  refine ⟨?_, by simp, ?_, ?_, fits_snoc h.fits ?_⟩
  · refine .opened ⟨hs.atMargin.split, hs.atMargin.pos⟩ rfl (Or.inl rfl) hr
      s.atMargin_not_blank (hs.spacesAt_atMargin hd) ?_ ?_
    · rw [openLine_layout seen (Or.inl rfl), ho]
    · exact .line hg (opens_atMargin hr) heven (Nat.le_of_eq heq)
  · simp only [dedents_snoc, indents_snoc, indentWidth, reduceCtorEq, if_true, if_false] at *
    omega
  · intro _
    have hne : s.rest ≠ [] := by
      intro hn
      simp [hn] at hr
    have hb := h.budget hne
    have hlen := length_atMargin s
    have hmargin := margin_le_length s
    simp only [List.length_append, List.length_singleton, indentWidth] at *
    omega
  · exact
      { balance := h.balance
        content := fun hk => by cases hk
        indent := fun _ => h.last.trans hc
        dedent := fun hk => by cases hk
        newline := fun hk => by cases hk }

/-- A scanner that has arrived at a lexeme of a line. -/
structure AtLexeme (bytes : List UInt8) (seen : List Token) (s a : Scanner) : Prop where
  located : ∃ done, Located bytes done a
  indent : a.indent = s.indent
  current : a.current = s.current
  shorter : a.rest.length ≤ s.rest.length
  gets : ∃ before, Gets bytes (.inside s.indent) before ∧
    before.dropWhile Byte.isInlineBlank = a.rest
  margin : ∀ kind, spacesAt bytes (lineHead seen ⟨kind, a.pos⟩).pos.line = s.indent
  inside : a.rest.head? = some Byte.lineFeed → s.current.kind.isContent = true

theorem not_inline_of_not_blank {run : List UInt8} (h : ∀ b ∈ run.head?, Byte.isBlank b = false) :
    run.dropWhile Byte.isInlineBlank = run ∧ run.head? ≠ some Byte.lineFeed := by
  cases run with
  | nil => exact ⟨rfl, by simp⟩
  | cons b run =>
    have hb := h b rfl
    simp only [Byte.isBlank, Bool.or_eq_false_iff, beq_eq_false_iff_ne] at hb
    exact ⟨by simp [hb.1], by simpa using hb.2⟩

theorem head?_openLine_snoc (seen : List Token) (t : Token) :
    (openLine seen ++ [t]).head? = some (lineHead seen t) := by
  unfold lineHead
  cases openLine seen with
  | nil => rfl
  | cons u us => rfl

theorem lineHead_of_fresh {seen : List Token} (h : openLine seen = []) (t : Token) :
    lineHead seen t = t := by
  simp [lineHead, h]

theorem Laid.atLexeme {bytes : List UInt8} {seen : List Token} {s a : Scanner}
    (h : Laid bytes seen s) (ha : s.Arrives a) (hr : a.rest ≠ []) : AtLexeme bytes seen s a := by
  cases ha with
  | ended _ hn => exact absurd hn hr
  | level hl hne heven heq =>
    obtain ⟨⟨done, hs, hd⟩, hc, ho, hg⟩ := h.lineStart hl
    obtain ⟨hstay, hlf⟩ := not_inline_of_not_blank s.atMargin_not_blank
    have hm : spacesAt bytes s.atMargin.pos.line = s.indent := (hs.spacesAt_atMargin hd).trans heq
    have hg' : Gets bytes (.inside s.margin) s.atMargin.rest :=
      .line hg (opens_atMargin hne) heven (by omega)
    rw [heq] at hg'
    exact
      { located := ⟨_, hs.atMargin⟩
        indent := rfl
        current := rfl
        shorter := by have := length_atMargin s; omega
        gets := ⟨_, hg', hstay⟩
        margin := fun kind => by rw [lineHead_of_fresh ho]; exact hm
        inside := fun hf => absurd hf hlf }
  | inline hl =>
    have hshort : (s.past Byte.isInlineBlank).rest.length ≤ s.rest.length := by
      rw [Scanner.rest_past]
      exact (List.dropWhile_sublist _).length_le
    cases h.phase with
    | lineStart _ hl' => rw [hl] at hl'; cases hl'
    | closing _ hl' => rw [hl] at hl'; cases hl'
    | ended _ _ hn => simp [hn] at hr
    | opened hs _ hc hne hb hm ho hg =>
      obtain ⟨hstay, hlf⟩ := not_inline_of_not_blank hb
      have hself : s.past Byte.isInlineBlank = s := by
        apply Scanner.past_eq_self
        intro b hmem
        have := hb b hmem
        simp only [Byte.isBlank, Bool.or_eq_false_iff] at this
        exact this.1
      rw [hself]
      exact
        { located := ⟨_, hs⟩
          indent := rfl
          current := rfl
          shorter := Nat.le_refl _
          gets := ⟨_, hg, hstay⟩
          margin := fun kind => by rw [lineHead_of_fresh ho]; exact hm
          inside := fun hf => absurd hf hlf }
    | @inside done head hs _ hc ho hm hg =>
      exact
        { located := ⟨_, hs.past Byte.isInlineBlank⟩
          indent := rfl
          current := rfl
          shorter := hshort
          gets := ⟨_, hg, (Scanner.rest_past s Byte.isInlineBlank).symm⟩
          margin := fun kind => by simpa [lineHead, ho] using hm
          inside := fun _ => hc }

theorem Laid.step_lexeme {bytes : List UInt8} {seen : List Token} {s a : Scanner} {first : UInt8}
    {rest : List UInt8} {kind : Token.Kind} (h : Laid bytes seen s) (ha : s.Arrives a)
    (hr : a.rest = first :: rest) (hk : (Lexeme.read first rest).kind = .ok kind)
    (he : kind ≠ .eof) :
    Laid bytes (seen ++ [⟨kind, a.pos⟩]) (a.behind (Lexeme.read first rest).length kind) := by
  have hne : a.rest ≠ [] := by simp [hr]
  have hat := h.atLexeme ha hne
  obtain ⟨done, hs⟩ := hat.located
  obtain ⟨before, hg, hbefore⟩ := hat.gets
  have hfits := Lexeme.read_fits first rest
  have hlevel := h.level
  have hbudget : 2 * (seen ++ [(⟨kind, a.pos⟩ : Token)]).length + a.indent +
      2 * (a.rest.drop (Lexeme.read first rest).length).length ≤ 2 * bytes.length := by
    have hb := h.budget (by intro hn; have := hat.shorter; simp [hn, hr] at this)
    have hshort := hat.shorter
    have hpos := hfits.pos
    have hle := hfits.le
    rw [List.length_append, List.length_singleton, hat.indent, List.length_drop, hr,
      List.length_cons] at *
    omega
  by_cases hf : first = Byte.lineFeed
  · subst hf
    rw [Lexeme.read_lineFeed] at hk hbudget ⊢
    cases hk
    have hcontent : s.current.kind.isContent = true := hat.inside (by rw [hr]; rfl)
    refine ⟨?_, by simp [Scanner.behind], ?_, fun _ => hbudget, fits_snoc h.fits ?_⟩
    · refine .lineStart (hs.behind 1 .newline) rfl ?_ rfl (openLine_newline seen rfl) ?_
      · right
        simp [hr]
      · simp only [Scanner.behind, hat.indent, hr, List.drop_one, List.tail_cons]
        exact .ending hg (hbefore.trans hr)
    · simpa [Scanner.behind, hat.indent] using hlevel
    · exact
        { balance := h.balance
          content := fun hc => by cases hc
          indent := fun hc => by cases hc
          dedent := fun hc => by cases hc
          newline := fun _ => by rw [h.last]; exact hcontent }
  · have hcontent : kind.isContent = true := by
      have hin := Lexeme.read_inline hf rest
      rw [hk] at hin
      exact hin.resolve_right he
    have hnl : kind ≠ .newline := by rintro rfl; cases hcontent
    have hni : kind ≠ .indent := by rintro rfl; cases hcontent
    have hnd : kind ≠ .dedent := by rintro rfl; cases hcontent
    refine ⟨?_, by simp [Scanner.behind], ?_, fun _ => hbudget, fits_snoc h.fits ?_⟩
    · refine .inside (hs.behind _ kind) (if_neg hnl) hcontent ?_
        ((hat.margin kind).trans hat.indent.symm) ?_
      · rw [openLine_content seen hcontent]
        exact head?_openLine_snoc seen _
      · simp only [Scanner.behind, hat.indent, hr]
        exact .token hg (hbefore.trans hr) hk hcontent
    · simpa [Scanner.behind, hat.indent, hni, hnd] using hlevel
    · exact
        { balance := h.balance
          content := fun _ => by
            rw [hat.margin kind]
            omega
          indent := fun hc => absurd hc hni
          dedent := fun hc => absurd hc hnd
          newline := fun hc => absurd hc hnl }

/-- A scanner that has arrived at the end of the text, behind a line that may still be open. -/
structure AtEnd (bytes : List UInt8) (s a : Scanner) : Prop where
  located : Located bytes bytes a
  layout : a.layout = .inline
  indent : a.indent = s.indent
  current : a.current = s.current
  kind : s.current.kind = .newline ∨ s.current.kind = .dedent ∨ s.current.kind.isContent = true

theorem Located.all {bytes done : List UInt8} {s : Scanner} (h : Located bytes done s)
    (hr : s.rest = []) : Located bytes bytes s := by
  have hd : bytes = done := by rw [h.split, hr, List.append_nil]
  subst hd
  exact h

theorem Laid.atEnd {bytes : List UInt8} {seen : List Token} {s a : Scanner}
    (h : Laid bytes seen s) (ha : s.Arrives a) (hr : a.rest = []) : AtEnd bytes s a := by
  cases ha with
  | level _ hne => exact absurd hr hne
  | ended hl _ =>
    obtain ⟨⟨done, hs, -⟩, hc, -, -⟩ := h.lineStart hl
    exact ⟨hs.atMargin.all hr, rfl, rfl, rfl, Or.inl hc⟩
  | inline hl =>
    cases h.phase with
    | lineStart _ hl' => rw [hl] at hl'; cases hl'
    | closing _ hl' => rw [hl] at hl'; cases hl'
    | opened _ _ _ hne hb =>
      rw [Scanner.rest_past, (not_inline_of_not_blank hb).1] at hr
      exact absurd hr hne
    | inside hs _ hc =>
      exact ⟨(hs.past Byte.isInlineBlank).all hr, hl, rfl, rfl, Or.inr (Or.inr hc)⟩
    | ended hs _ _ hc =>
      refine ⟨(hs.past Byte.isInlineBlank).all hr, hl, rfl, rfl, ?_⟩
      exact hc.imp id Or.inl

theorem Laid.step_newline {bytes : List UInt8} {seen : List Token} {s a : Scanner}
    (h : Laid bytes seen s) (ha : s.Arrives a) (hr : a.rest = [])
    (hc : a.current.kind.closesLine = false) :
    Laid bytes (seen ++ [⟨.newline, a.pos⟩]) { a with current := ⟨.newline, a.pos⟩ } := by
  have hat := h.atEnd ha hr
  have hlevel := h.level
  have hcontent : s.current.kind.isContent = true := by
    rw [hat.current] at hc
    rcases hat.kind with hk | hk | hk
    · rw [hk] at hc; cases hc
    · rw [hk] at hc; cases hc
    · exact hk
  refine ⟨?_, by simp, ?_, fun hne => absurd hr hne, fits_snoc h.fits ?_⟩
  · exact .ended ⟨hat.located.split, hat.located.pos⟩ hat.layout hr (Or.inl rfl)
  · simpa [hat.indent] using hlevel
  · exact
      { balance := h.balance
        content := fun hk => by cases hk
        indent := fun hk => by cases hk
        dedent := fun hk => by cases hk
        newline := fun _ => by rw [h.last]; exact hcontent }

theorem Laid.step_unwind {bytes : List UInt8} {seen : List Token} {s a : Scanner}
    (h : Laid bytes seen s) (ha : s.Arrives a) (hr : a.rest = [])
    (hc : a.current.kind.closesLine = true) (hi : 0 < a.indent) :
    Laid bytes (seen ++ [⟨.dedent, a.pos⟩])
      { a with indent := a.indent - indentWidth, current := ⟨.dedent, a.pos⟩ } := by
  have hat := h.atEnd ha hr
  have hlevel := h.level
  have heven := h.even
  have hkind : s.current.kind = .newline ∨ s.current.kind = .dedent := by
    rcases hat.kind with hk | hk | hk
    · exact Or.inl hk
    · exact Or.inr hk
    · rw [hat.current] at hc
      cases hs : s.current.kind <;> rw [hs] at hc hk <;> cases hc <;> cases hk
  rw [hat.indent] at hi
  refine ⟨?_, by simp, ?_, fun hne => absurd hr hne, fits_snoc h.fits ?_⟩
  · exact .ended ⟨hat.located.split, hat.located.pos⟩ hat.layout hr (Or.inr rfl)
  · simp only [dedents_snoc, indents_snoc, hat.indent, indentWidth, reduceCtorEq, if_true,
      if_false] at *
    omega
  · exact h.fits_dedent rfl hi hkind

/-- Every request that gives a token keeps the invariant. -/
theorem Laid.step {bytes : List UInt8} {seen : List Token} {s s' : Scanner} {t : Token}
    (h : Laid bytes seen s) (ha : s.Advances t s') (hk : t.kind ≠ .eof) :
    Laid bytes (seen ++ [t]) s' := by
  cases ha with
  | close hl => exact h.step_close hl
  | dedent hl hr heven hlt => exact h.step_dedent hl hr heven hlt
  | indent hl hr heven heq => exact h.step_indent hl hr heven heq
  | lexeme ha hr hkind => exact h.step_lexeme ha hr hkind hk
  | newline ha hr hc => exact h.step_newline ha hr hc
  | unwind ha hr hc hi => exact h.step_unwind ha hr hc hi
  | eof => exact absurd rfl hk

/-- The invariant holds along every run of requests. -/
theorem laid_of_reads {bytes : List UInt8} {seen : List Token} {s : Scanner}
    (h : (Scanner.ofBytes bytes).Reads seen s) : Laid bytes seen s := by
  induction h with
  | refl => exact laid_ofBytes bytes
  | snoc _ ha hk ih => exact ih.step ha hk

/-- The end of the text may add the end of its last line, for which no byte pays. -/
theorem budget_of_reads {bytes : List UInt8} {seen : List Token} {s : Scanner}
    (h : (Scanner.ofBytes bytes).Reads seen s) :
    2 * seen.length + s.indent + 2 * s.rest.length ≤
      2 * bytes.length + if s.current.kind.closesLine then 2 else 0 := by
  induction h with
  | refl => simp [Scanner.ofBytes]
  | @snoc seen t u v hr ha hk ih =>
    have hlaid := laid_of_reads hr
    have hlaid' := hlaid.step ha hk
    by_cases hrest : v.rest = []
    · cases ha with
      | close hl => exact absurd hrest (hlaid.closing hl).2.rest_ne
      | dedent _ hne => exact absurd hrest hne
      | indent _ hne => exact absurd hrest hne
      | eof => exact absurd rfl hk
      | @lexeme a first rest kind ha hr hkind =>
        have hat := hlaid.atLexeme ha (by simp [hr])
        have hshort := hat.shorter
        have hb := hlaid.budget (by intro hn; simp [hn, hr] at hshort)
        have hindent : (a.behind (Lexeme.read first rest).length kind).indent = u.indent :=
          hat.indent
        rw [hrest, hindent, List.length_append, List.length_singleton, List.length_nil]
        rw [hr, List.length_cons] at hshort
        omega
      | @newline a ha hr hc =>
        have hat := hlaid.atEnd ha hr
        rw [hat.current] at hc
        simp only [hc, Bool.false_eq_true, if_false] at ih
        simp only [hr, hat.indent, List.length_append, List.length_singleton, List.length_nil,
          Token.Kind.closesLine, if_true]
        omega
      | @unwind a ha hr hc hi =>
        have hat := hlaid.atEnd ha hr
        have heven := hlaid.even
        rw [hat.current] at hc
        simp only [hc, if_true] at ih
        simp only [hr, hat.indent, List.length_append, List.length_singleton, List.length_nil,
          Token.Kind.closesLine, if_true, indentWidth] at *
        omega
    · have hb := hlaid'.budget hrest
      omega

/-- There is at most one token more than there are bytes, the end apart. -/
theorem length_le_of_reads {bytes : List UInt8} {seen : List Token} {s : Scanner}
    (h : (Scanner.ofBytes bytes).Reads seen s) : seen.length ≤ bytes.length + 1 := by
  have hb := budget_of_reads h
  split at hb
  · omega
  · omega

theorem Laid.fits_eof {bytes : List UInt8} {seen : List Token} {s : Scanner} {t : Token}
    (h : Laid bytes seen s) (ht : t.kind = .eof) : Fits bytes seen t where
  balance := h.balance
  content hk := by rw [ht] at hk; cases hk
  indent hk := by rw [ht] at hk; cases hk
  dedent hk := by rw [ht] at hk; cases hk
  newline hk := by rw [ht] at hk; cases hk

/-- At the end of the text, rather than at the word for it, all blocks have been closed. -/
theorem Laid.closed_of_eof {bytes : List UInt8} {seen : List Token} {s s' : Scanner} {t : Token}
    (h : Laid bytes seen s) (ha : s.Advances t s') (hk : t.kind = .eof)
    (hp : t.pos = Position.start.afterAll bytes) : dedents seen = indents seen := by
  have hlevel := h.level
  cases ha with
  | close => cases hk
  | dedent => cases hk
  | indent => cases hk
  | newline => cases hk
  | unwind => cases hk
  | eof ha hr _ hi =>
    have hat := h.atEnd ha hr
    rw [hat.indent] at hi
    omega
  | @lexeme a first rest kind ha hr _ =>
    have hne : a.rest ≠ [] := by simp [hr]
    obtain ⟨done, hs⟩ := (h.atLexeme ha hne).located
    have hpos : a.pos.afterAll a.rest = Position.start.afterAll bytes := by
      rw [hs.pos, ← Position.afterAll_append, ← hs.split]
    have hsame : a.pos = Position.start.afterAll bytes := hp
    exact absurd (hpos.trans hsame.symm) (afterAll_ne hne)

/-- Every token of a text fits behind those before it, also if an error follows. -/
theorem ofSource_fits (source : String) (before : List Token) (t : Token) (after : List Token)
    (h : (TokenStream.ofSource source).tokens = before ++ t :: after) :
    Fits (utf8 source) before t := by
  obtain ⟨seen, u, hr, hcases⟩ :=
    TokenStream.ofScanner_cases ((utf8 source).length + 2) (Scanner.ofBytes (utf8 source))
  have hlaid := laid_of_reads hr
  have hstream : TokenStream.ofSource source =
      TokenStream.ofScanner ((utf8 source).length + 2) (Scanner.ofBytes (utf8 source)) := rfl
  rw [hstream] at h
  rcases hcases with ⟨e, v, he, _, hk⟩ | ⟨e, he, _⟩ | ⟨he, _⟩
  · rw [he] at h
    exact fits_snoc hlaid.fits (hlaid.fits_eof hk) before t after h
  · rw [he] at h
    exact hlaid.fits before t after h
  · rw [he] at h
    exact hlaid.fits before t after h

end Layout

end Mython
