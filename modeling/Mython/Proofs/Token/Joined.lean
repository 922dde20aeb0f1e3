import Mython.Proofs.Program.Moved
import Mython.Proofs.Token.Continuation
import Mython.Proofs.Token.Slices

namespace Mython

open Margin Layout

namespace Position

theorem down_after (n : Nat) (p : Position) (b : UInt8) :
    (p.down n).after b = (p.after b).down n := by
  unfold after
  split
  · simp only [down, Position.mk.injEq, and_true]
    omega
  · rfl

theorem down_afterAll (n : Nat) (p : Position) (run : List UInt8) :
    (p.down n).afterAll run = (p.afterAll run).down n := by
  induction run generalizing p with
  | nil => rfl
  | cons b run ih => rw [afterAll_cons, afterAll_cons, down_after, ih]

/-- A text that ends with a line break leads to the start of a line. -/
theorem afterAll_of_endsLine {text : List UInt8} (h : EndsLine text) :
    start.afterAll text = start.down (text.count Byte.lineFeed) := by
  have hline := line_afterAll start text
  have hcolumn := Slices.column_afterAll text
  rw [Slices.sinceBreak_of_endsLine h] at hcolumn
  generalize start.afterAll text = p at hline hcolumn
  obtain ⟨line, column⟩ := p
  simp only at hline hcolumn
  rw [hline, hcolumn]
  rfl

end Position

namespace Scanner

/-- The tokens that a scanner gives, up to and with the end. -/
inductive Tokens : Scanner → List Token → Prop
  | eof {s v : Scanner} {t : Token} (hn : s.next = (.ok t, v)) (hk : t.kind = .eof) : Tokens s [t]
  | cons {s v : Scanner} {t : Token} {ts : List Token} (hn : s.next = (.ok t, v))
      (hk : t.kind ≠ .eof) (h : Tokens v ts) : Tokens s (t :: ts)

variable {s s' u v a : Scanner} {t : Token} {ts us : List Token}

/-- There is no other way to give a token than those of `Advances`. -/
theorem advances_of_next (h : s.next = (.ok t, v)) : s.Advances t v := by
  rcases s.advances_or_fails with ⟨t', v', ha⟩ | ⟨e, hf⟩
  · cases ha.next_eq.symm.trans h
    exact ha
  · obtain ⟨s', he⟩ := hf.next_eq
    rw [he] at h
    cases h

theorem Tokens.of_next (h : s.Tokens ts) (hn : s'.next = s.next) : s'.Tokens ts := by
  cases h with
  | eof hs hk => exact .eof (hn.trans hs) hk
  | cons hs hk hv => exact .cons (hn.trans hs) hk hv

theorem Tokens.unique (h : s.Tokens ts) (h' : s.Tokens us) : us = ts := by
  induction h generalizing us with
  | eof hn hk =>
    cases h' with
    | eof hn' _ =>
      cases hn.symm.trans hn'
      rfl
    | cons hn' hk' _ =>
      cases hn.symm.trans hn'
      exact absurd hk hk'
  | cons hn hk _ ih =>
    cases h' with
    | eof hn' hk' =>
      cases hn.symm.trans hn'
      exact absurd hk' hk
    | cons hn' _ hv =>
      cases hn.symm.trans hn'
      rw [ih hv]

theorem Reads.tokens {seen : List Token} (hr : s.Reads seen u) (h : u.Tokens ts) :
    s.Tokens (seen ++ ts) := by
  induction hr generalizing ts with
  | refl => exact h
  | snoc _ ha hk ih =>
    rw [List.append_assoc]
    exact ih (.cons ha.next_eq hk h)

theorem Tokens.reads (h : s.Tokens ts) :
    ∃ seen u t v, ts = seen ++ [t] ∧ s.Reads seen u ∧ u.Advances t v ∧ t.kind = .eof := by
  induction h with
  | @eof s v t hn hk => exact ⟨[], s, t, v, rfl, .refl, advances_of_next hn, hk⟩
  | cons hn hk _ ih =>
    obtain ⟨seen, u, last, w, rfl, hr, ha, hlast⟩ := ih
    exact ⟨_, u, last, w, rfl, .cons (advances_of_next hn) hk hr, ha, hlast⟩

/-- At the end of the text, behind a complete line, the open blocks are closed. -/
theorem tokens_end {k : Nat} (ha : s.Arrives a) (hr : a.rest = [])
    (hc : a.current.kind.closesLine = true) (hi : a.indent = 2 * k) :
    s.Tokens (List.replicate k ⟨.dedent, a.pos⟩ ++ [⟨.eof, a.pos⟩]) := by
  induction k generalizing s a with
  | zero => exact .eof (Advances.eof ha hr hc hi).next_eq rfl
  | succ k ih =>
    have hindent : a.indent - indentWidth = 2 * k := by
      rw [indentWidth]
      omega
    refine .cons (Advances.unwind ha hr hc (by omega)).next_eq (by simp) ?_
    have hl : a.layout = .inline := layout_of_arrives ha
    have hnext := Arrives.inline
      (show ({ a with indent := a.indent - indentWidth, current := ⟨.dedent, a.pos⟩ } :
        Scanner).layout = .inline from hl)
    rw [past_eq_self (by simp [hr])] at hnext
    have htokens := ih hnext hr rfl hindent
    exact htokens

/-- In front of a line at the margin, the open blocks are closed as well. -/
theorem tokens_closed {k : Nat} (hi : s.indent = 2 * (k + 1))
    (hnext : ∀ u : Scanner, u.layout = .inline → u.rest = s.rest → u.indent = 0 → u.pos = s.pos →
      u.current.kind = .dedent → u.Tokens ts) :
    (s.closed 0).Tokens (List.replicate k ⟨.dedent, s.pos⟩ ++ ts) := by
  have hindent : s.indent - indentWidth = 2 * k := by
    rw [indentWidth]
    omega
  induction k generalizing s with
  | zero => exact hnext _ (if_pos hindent) rfl hindent rfl rfl
  | succ k ih =>
    have hlayout : (s.closed 0).layout = .closing 0 := by
      apply if_neg
      omega
    refine .cons (Advances.close hlayout).next_eq (by simp) (ih hindent hnext ?_)
    show s.indent - indentWidth - indentWidth = 2 * k
    rw [hindent, indentWidth]
    omega

/-- The same scanner some lines further below. -/
structure Below (n : Nat) (s s' : Scanner) : Prop where
  rest : s'.rest = s.rest
  pos : s'.pos = s.pos.down n
  indent : s'.indent = s.indent
  layout : s'.layout = s.layout
  closes : s'.current.kind.closesLine = s.current.kind.closesLine

namespace Below

variable {n : Nat}

theorem past (h : Below n s s') (p : UInt8 → Bool) : Below n (s.past p) (s'.past p) where
  rest := by rw [rest_past, rest_past, h.rest]
  pos := by rw [pos_past, pos_past, h.pos, h.rest, Position.down_afterAll]
  indent := h.indent
  layout := h.layout
  closes := h.closes

theorem atMargin (h : Below n s s') : Below n s.atMargin s'.atMargin where
  rest := (h.past Byte.isBlank).rest
  pos := (h.past Byte.isBlank).pos
  indent := h.indent
  layout := rfl
  closes := h.closes

theorem margin (h : Below n s s') : s'.margin = s.margin := by
  rw [Scanner.margin, h.rest, Scanner.margin]

theorem arrives (h : Below n s s') (ha : s.Arrives a) : ∃ a', s'.Arrives a' ∧ Below n a a' := by
  cases ha with
  | inline hl => exact ⟨_, .inline (h.layout.trans hl), h.past _⟩
  | ended hl hr => exact ⟨_, .ended (h.layout.trans hl) (h.atMargin.rest.trans hr), h.atMargin⟩
  | level hl hr heven heq =>
    refine ⟨_, .level (h.layout.trans hl) ?_ ?_ ?_, h.atMargin⟩
    · rw [h.atMargin.rest]
      exact hr
    · rw [h.margin, heven]
    · rw [h.margin, heq, h.indent]

/-- Whatever a scanner gives, it gives as well further below. -/
theorem advances (h : Below n s s') (ha : s.Advances t v) :
    ∃ v', s'.Advances (t.down n) v' ∧ Below n v v' := by
  cases ha with
  | @close target hl =>
    have ha' := Advances.close (h.layout.trans hl)
    rw [h.pos] at ha'
    refine ⟨_, ha', h.rest, h.pos, ?_, ?_, rfl⟩
    · simp only [closed, h.indent]
    · simp only [closed, h.indent]
  | dedent hl hr heven hlt =>
    have hm := h.atMargin
    have ha' := Advances.dedent (h.layout.trans hl) (by rw [hm.rest]; exact hr)
      (by rw [h.margin, heven]) (by rw [h.margin, h.indent]; exact hlt)
    rw [hm.pos, h.margin] at ha'
    refine ⟨_, ha', hm.rest, hm.pos, ?_, ?_, rfl⟩
    · simp only [closed, hm.indent]
    · simp only [closed, hm.indent]
  | indent hl hr heven heq =>
    have hm := h.atMargin
    have ha' := Advances.indent (h.layout.trans hl) (by rw [hm.rest]; exact hr)
      (by rw [h.margin, heven]) (by rw [h.margin, h.indent]; exact heq)
    rw [hm.pos, h.margin] at ha'
    exact ⟨_, ha', hm.rest, hm.pos, rfl, rfl, rfl⟩
  | lexeme ha hr hk =>
    obtain ⟨a', ha', hbelow⟩ := h.arrives ha
    have hnext := Advances.lexeme ha' (hbelow.rest.trans hr) hk
    rw [hbelow.pos] at hnext
    refine ⟨_, hnext, ?_, ?_, hbelow.indent, rfl, rfl⟩
    · simp only [behind, hbelow.rest]
    · simp only [behind, hbelow.rest, hbelow.pos, Position.down_afterAll]
  | newline ha hr hc =>
    obtain ⟨a', ha', hbelow⟩ := h.arrives ha
    have hnext := Advances.newline ha' (hbelow.rest.trans hr) (hbelow.closes.trans hc)
    rw [hbelow.pos] at hnext
    exact ⟨_, hnext, hbelow.rest, rfl, hbelow.indent, hbelow.layout, rfl⟩
  | unwind ha hr hc hi =>
    obtain ⟨a', ha', hbelow⟩ := h.arrives ha
    have hnext := Advances.unwind ha' (hbelow.rest.trans hr) (hbelow.closes.trans hc)
      (by rw [hbelow.indent]; exact hi)
    rw [hbelow.pos, hbelow.indent] at hnext
    exact ⟨_, hnext, hbelow.rest, rfl, rfl, hbelow.layout, rfl⟩
  | eof ha hr hc hi =>
    obtain ⟨a', ha', hbelow⟩ := h.arrives ha
    have hnext := Advances.eof ha' (hbelow.rest.trans hr) (hbelow.closes.trans hc)
      (hbelow.indent.trans hi)
    rw [hbelow.pos] at hnext
    exact ⟨_, hnext, hbelow.rest, rfl, hbelow.indent, hbelow.layout, rfl⟩

theorem tokens (h : Below n s s') (ht : s.Tokens ts) : s'.Tokens (ts.map (Token.down n)) := by
  induction ht generalizing s' with
  | eof hn hk =>
    obtain ⟨v', ha', -⟩ := h.advances (advances_of_next hn)
    exact .eof ha'.next_eq hk
  | cons hn hk _ ih =>
    obtain ⟨v', ha', hbelow⟩ := h.advances (advances_of_next hn)
    exact .cons ha'.next_eq hk (ih hbelow)

end Below

end Scanner

namespace Token.Kind

/-- Only the end of a line ends with a line break. -/
theorem eq_newline_of_spelled {kind : Kind} {run : List UInt8} (h : kind.Spelled run)
    (hlast : run.getLast? = some Byte.lineFeed) : kind = newline := by
  have hmem : Byte.lineFeed ∈ run := List.mem_of_getLast? hlast
  have hword : ¬ Byte.SpellsWord run := fun hspells => absurd (hspells.2 _ hmem) (by decide)
  cases kind with
  | newline => rfl
  | number value => exact absurd (h.2.1 _ hmem) (by decide)
  | name word => exact absurd h.2.1 hword
  | keyword k =>
    obtain rfl : run = utf8 k.spelling := h
    exact absurd k.spellsWord hword
  | mark c =>
    obtain ⟨b, hb, -, rfl⟩ := h
    obtain rfl := List.mem_singleton.1 hmem
    exact absurd hb (by decide)
  | text content =>
    obtain ⟨quote, hquote, -, rfl⟩ := h
    have hbreak : quote = Byte.lineFeed := by
      rw [← List.cons_append, List.getLast?_concat] at hlast
      exact Option.some.inj hlast
    subst hbreak
    exact absurd hquote (by decide)
  | indent => exact h.elim
  | dedent => exact h.elim
  | _ =>
    rw [Spelled] at h
    subst h
    revert hlast
    decide

end Token.Kind

namespace Margin

theorem EndsLine.of_append {text more : List UInt8} (h : EndsLine (text ++ more)) :
    EndsLine more := by
  rcases h with h | h
  · exact Or.inl (List.append_eq_nil_iff.1 h).2
  · cases more with
    | nil => exact Or.inl rfl
    | cons b more =>
      right
      rwa [List.getLast?_append_of_ne_nil _ (List.cons_ne_nil b more)] at h

/-- The spaces in a margin are those behind the last line break. -/
theorem spaces_append_of_endsLine {run : List UInt8} (h : EndsLine run) (blanks : List UInt8) :
    Scanner.spaces (run ++ blanks) = Scanner.spaces blanks := by
  have hzero := spaces_of_endsLine h
  rw [Scanner.spaces] at hzero
  rw [Scanner.spaces, List.foldl_append, hzero, Scanner.spaces]

end Margin

namespace Layout

theorem Laid.located {bytes : List UInt8} {seen : List Token} {s : Scanner}
    (h : Laid bytes seen s) : ∃ done, Located bytes done s := by
  cases h.phase with
  | lineStart hs => exact ⟨_, hs⟩
  | closing hs => exact ⟨_, hs⟩
  | opened hs => exact ⟨_, hs⟩
  | inside hs => exact ⟨_, hs⟩
  | ended hs => exact ⟨_, hs⟩

theorem Laid.endsLine {bytes : List UInt8} {seen : List Token} {s : Scanner}
    (h : Laid bytes seen s) (hends : EndsLine bytes) : EndsLine s.rest := by
  obtain ⟨done, hlocated⟩ := h.located
  rw [hlocated.split] at hends
  exact hends.of_append

end Layout

namespace Scanner

variable {s s' u v a : Scanner} {t : Token} {ts : List Token} {more : List UInt8}

/-- A scanner with only blank lines in front of it, and another text behind them. -/
structure Between (more : List UInt8) (n k : Nat) (s s' : Scanner) : Prop where
  exchanged : Exchanged [] more s s'
  layout : s.layout = .lineStart
  blank : s.atMargin.rest = []
  current : s.current.kind = .newline
  indent : s.indent = 2 * k
  ends : EndsLine s.rest
  pos : s.pos.afterAll s.rest = Position.start.down n

namespace Between

variable {n k : Nat}

theorem takeWhile_eq (h : Between more n k s s') : s.rest.takeWhile Byte.isBlank = s.rest := by
  have hdrop : s.rest.dropWhile Byte.isBlank = [] := (rest_atMargin s).symm.trans h.blank
  have hsplit := List.takeWhile_append_dropWhile (p := Byte.isBlank) (l := s.rest)
  rwa [hdrop, List.append_nil] at hsplit

theorem tokens (h : Between more n k s s') :
    s.Tokens (List.replicate k ⟨.dedent, Position.start.down n⟩ ++
      [⟨.eof, Position.start.down n⟩]) := by
  have hpos : s.atMargin.pos = Position.start.down n := by
    rw [← h.pos]
    show (s.past Byte.isBlank).pos = _
    rw [pos_past, h.takeWhile_eq]
  have htokens := tokens_end (.ended h.layout h.blank) h.blank
    (show s.atMargin.current.kind.closesLine = true by
      rw [show s.atMargin.current = s.current from rfl, h.current]
      rfl) (h.indent)
  rwa [hpos] at htokens

/-- Behind the blank lines the second text is read as if nothing stood before it. -/
theorem atMargin (h : Between more n k s s') :
    s'.atMargin.rest = (ofBytes more).atMargin.rest ∧
      s'.atMargin.pos = (ofBytes more).atMargin.pos.down n ∧ s'.margin = (ofBytes more).margin := by
  have hall : ∀ b ∈ s.rest, Byte.isBlank b = true := by
    rw [← h.takeWhile_eq]
    exact fun b hb => List.mem_takeWhile_imp hb
  have hrest : s'.rest = s.rest ++ more := by
    obtain ⟨run, hrun, rfl⟩ := h.exchanged
    rw [hrun, List.append_nil]
  have hblanks : s'.rest.takeWhile Byte.isBlank = s.rest ++ more.takeWhile Byte.isBlank := by
    rw [hrest, List.takeWhile_append_of_pos hall]
  refine ⟨?_, ?_, ?_⟩
  · rw [rest_atMargin, rest_atMargin, hrest, List.dropWhile_append_of_pos hall]
    rfl
  · show (s'.past Byte.isBlank).pos = ((ofBytes more).past Byte.isBlank).pos.down n
    rw [pos_past, pos_past, hblanks, h.exchanged.pos_eq, Position.afterAll_append, h.pos,
      Position.down_afterAll]
    rfl
  · rw [margin, hblanks, spaces_append_of_endsLine h.ends]
    rfl

theorem next_atMargin (h : s.Arrives s.atMargin) : s.atMargin.next = s.next := by
  have hscan : s.atMargin.scan = s.scan := by
    rw [scan_of_arrives h, ← token_atMargin]
    rfl
  rw [next, hscan, next]

/-- The first line of a text is at the margin, unless a block opens there. -/
theorem margin_eq_zero (hne : (ofBytes more).atMargin.rest ≠ [])
    (ha : (ofBytes more).Advances t v) (ht : t.kind ≠ .indent) : (ofBytes more).margin = 0 := by
  have harrives : ∀ {a}, (ofBytes more).Arrives a → (ofBytes more).margin = 0 := by
    intro a ha
    cases ha with
    | inline hl => cases hl
    | ended hl hr => exact absurd hr hne
    | level hl hr heven heq => exact heq
  cases ha with
  | close hl => cases hl
  | dedent hl hr heven hlt => exact absurd hlt (Nat.not_lt_zero _)
  | indent hl hr heven heq => exact absurd rfl ht
  | lexeme ha => exact harrives ha
  | newline ha => exact harrives ha
  | unwind ha => exact harrives ha
  | eof ha => exact harrives ha

/-- The open blocks are closed in front of the second text, whose tokens follow. -/
theorem tokens_joined (h : Between more n k s s') (ht : (ofBytes more).Tokens ts)
    (hfirst : ∀ t ∈ ts.head?, t.kind ≠ .indent) :
    ∃ q, s'.Tokens (List.replicate k ⟨.dedent, q⟩ ++ ts.map (Token.down n)) := by
  obtain ⟨hrest, hpos, hmargin⟩ := h.atMargin
  have hlayout : s'.layout = .lineStart := h.exchanged.layout_eq.trans h.layout
  have hindent : s'.indent = 2 * k := h.exchanged.indent_eq.trans h.indent
  have hcloses : s'.current.kind.closesLine = true := by
    obtain ⟨run, -, rfl⟩ := h.exchanged
    show s.current.kind.closesLine = true
    rw [h.current]
    rfl
  refine ⟨s'.atMargin.pos, ?_⟩
  by_cases hnil : (ofBytes more).atMargin.rest = []
  · have hnone := tokens_end (k := 0) (.ended rfl hnil) hnil rfl rfl
    have hend := tokens_end (.ended hlayout (hrest.trans hnil)) (hrest.trans hnil) hcloses hindent
    rw [hnone.unique ht]
    rw [hpos] at hend ⊢
    exact hend
  · have hzero : (ofBytes more).margin = 0 := by
      cases ht with
      | eof hn hk => exact margin_eq_zero hnil (advances_of_next hn) (hfirst _ rfl)
      | cons hn hk hv => exact margin_eq_zero hnil (advances_of_next hn) (hfirst _ rfl)
    have hlevel : (ofBytes more).Arrives (ofBytes more).atMargin :=
      .level rfl hnil (by rw [hzero]; rfl) hzero
    have hsecond : (ofBytes more).atMargin.Tokens ts := ht.of_next (next_atMargin hlevel)
    have hne : s'.atMargin.rest ≠ [] := by
      rw [hrest]
      exact hnil
    rw [hzero] at hmargin
    have heven : s'.margin % indentWidth = 0 := by
      rw [hmargin]
      rfl
    cases k with
    | zero =>
      have harrives : s'.Arrives s'.atMargin :=
        .level hlayout hne heven (hmargin.trans hindent.symm)
      have hbelow : Below n (ofBytes more).atMargin s'.atMargin :=
        ⟨hrest, hpos, hindent, rfl, hcloses⟩
      exact (hbelow.tokens hsecond).of_next (next_atMargin harrives).symm
    | succ k =>
      have hlt : s'.margin < s'.indent := by
        rw [hmargin, hindent]
        omega
      have hdedent := Advances.dedent hlayout hne heven hlt
      rw [hmargin] at hdedent
      refine .cons hdedent.next_eq (by simp) (tokens_closed hindent ?_)
      intro u hl hr hi hp hc
      have hbelow : Below n (ofBytes more).atMargin u :=
        ⟨hr.trans hrest, hp.trans hpos, hi, hl, by rw [hc]; rfl⟩
      exact hbelow.tokens hsecond

end Between

/-- A text that ends with a line break is read up to its last line whatever follows. -/
theorem advances_joined {source : String} {seen : List Token} (hends : EndsLine (utf8 source))
    (hlaid : Laid (utf8 source) seen s) (hx : Exchanged [] more s s')
    (hstart : s.rest = [] → s.layout = .lineStart)
    (hbetween : ¬ (s.layout = .lineStart ∧ s.atMargin.rest = [])) (ha : s.Advances t v) :
    (t.kind = .eof → t.pos ≠ Position.start.afterAll (utf8 source)) ∧
      ∃ v', s'.Advances t v' ∧ Exchanged [] more v v' ∧ (v.rest = [] → v.layout = .lineStart) := by
  have hlexeme : ∀ {a}, s.Arrives a → a.rest ≠ [] := by
    intro a ha hr
    cases ha with
    | ended hl hn => exact hbetween ⟨hl, hn⟩
    | level hl hn heven heq => exact hn hr
    | inline hl =>
      rw [rest_past, List.dropWhile_eq_nil_iff] at hr
      rcases hlaid.endsLine hends with hnil | hlast
      · rw [hstart hnil] at hl
        cases hl
      · exact absurd (hr _ (List.mem_of_getLast? hlast)) (by decide)
  constructor
  · intro hk
    cases ha with
    | eof ha hr => exact absurd hr (hlexeme ha)
    | newline => cases hk
    | unwind => cases hk
    | close => cases hk
    | dedent => cases hk
    | indent => cases hk
    | @lexeme a first rest kind ha hr hread =>
      obtain ⟨done, hlocated⟩ := (hlaid.atLexeme ha (hlexeme ha)).located
      show a.pos ≠ _
      rw [hlocated.split, Position.afterAll_append, ← hlocated.pos]
      exact (afterAll_ne (hlexeme ha)).symm
  · by_cases hv : v.rest = []
    · cases ha with
      | close hl =>
        rw [hstart hv] at hl
        cases hl
      | dedent hl hr => exact absurd hv hr
      | indent hl hr => exact absurd hv hr
      | newline ha hr => exact absurd hr (hlexeme ha)
      | unwind ha hr => exact absurd hr (hlexeme ha)
      | eof ha hr => exact absurd hr (hlexeme ha)
      | @lexeme a first rest kind ha hr hread =>
        obtain ⟨done, hlocated⟩ := (hlaid.atLexeme ha (hlexeme ha)).located
        have hbytes : utf8 source = done ++ first :: rest := hr ▸ hlocated.split
        have hall : (first :: rest).take (Lexeme.read first rest).length = first :: rest := by
          apply List.take_of_length_le
          rw [behind, hr] at hv
          exact List.drop_eq_nil_iff.1 hv
        obtain ⟨hspelled, -⟩ := Lexeme.read_reads hbytes _ hread
        rw [hall] at hspelled
        have hlast : (first :: rest).getLast? = some Byte.lineFeed := by
          rw [hbytes] at hends
          exact hends.of_append.resolve_left (List.cons_ne_nil _ _)
        obtain rfl := Token.Kind.eq_newline_of_spelled hspelled hlast
        obtain ⟨rfl, rfl⟩ : first = Byte.lineFeed ∧ rest = [] := List.cons.inj hspelled
        obtain ⟨a', ha', run, hrun, rfl⟩ := hx.arrives ha (by simp [hr])
        obtain rfl : run = [Byte.lineFeed] := by simpa [hr] using hrun.symm
        have hcons : [Byte.lineFeed] ++ more = Byte.lineFeed :: more := rfl
        have hnext := Advances.lexeme ha' hcons (by rw [Lexeme.read_lineFeed])
        refine ⟨_, hnext, ⟨[], ?_, ?_⟩, fun _ => rfl⟩
        · rw [Lexeme.read_lineFeed, behind, hr]
          rfl
        · simp [behind, Lexeme.read_lineFeed, hr]
    · obtain ⟨v', ha', hv'⟩ := hx.advances ha (List.length_pos_iff.2 hv)
      exact ⟨v', ha', hv', fun hnil => absurd hnil hv⟩

theorem between_of_blank {source : String} {seen : List Token} (hends : EndsLine (utf8 source))
    (hlaid : Laid (utf8 source) seen s) (hx : Exchanged [] more s s')
    (hlayout : s.layout = .lineStart) (hblank : s.atMargin.rest = []) :
    ∃ k, Between more ((utf8 source).count Byte.lineFeed) k s s' := by
  obtain ⟨k, hk⟩ := Nat.dvd_of_mod_eq_zero hlaid.even
  obtain ⟨⟨done, hlocated, -⟩, hcurrent, -, -⟩ := hlaid.lineStart hlayout
  refine ⟨k, hx, hlayout, hblank, hcurrent, hk, hlaid.endsLine hends, ?_⟩
  rw [← Position.afterAll_of_endsLine hends, hlocated.pos, ← Position.afterAll_append,
    ← hlocated.split]

/-- The tokens of a text that ends with a line break, and of the same text in front of another. -/
theorem Tokens.joined {source : String} {seen second : List Token} (ht : s.Tokens ts)
    (hends : EndsLine (utf8 source)) (hsecond : (ofBytes more).Tokens second)
    (hfirst : ∀ t ∈ second.head?, t.kind ≠ .indent)
    (hlast : ∀ t ∈ ts.getLast?, t.pos = Position.start.afterAll (utf8 source))
    (hlaid : Laid (utf8 source) seen s) (hx : Exchanged [] more s s')
    (hstart : s.rest = [] → s.layout = .lineStart) :
    ∃ front k p q, ts = front ++ (List.replicate k ⟨.dedent, p⟩ ++ [⟨.eof, p⟩]) ∧
      s'.Tokens (front ++ (List.replicate k ⟨.dedent, q⟩ ++
        second.map (Token.down ((utf8 source).count Byte.lineFeed)))) := by
  have hseam : ∀ {s s' ts seen}, s.Tokens ts → Laid (utf8 source) seen s →
      Exchanged [] more s s' → s.layout = .lineStart → s.atMargin.rest = [] →
      ∃ k p q, ts = List.replicate k ⟨.dedent, p⟩ ++ [⟨.eof, p⟩] ∧
        s'.Tokens (List.replicate k ⟨.dedent, q⟩ ++
          second.map (Token.down ((utf8 source).count Byte.lineFeed))) := by
    intro s s' ts seen ht hlaid hx hlayout hblank
    obtain ⟨k, hbetween⟩ := between_of_blank hends hlaid hx hlayout hblank
    obtain ⟨q, hq⟩ := hbetween.tokens_joined hsecond hfirst
    exact ⟨k, _, q, hbetween.tokens.unique ht, hq⟩
  induction ht generalizing s' seen with
  | @eof s v t hn hk =>
    by_cases hb : s.layout = .lineStart ∧ s.atMargin.rest = []
    · obtain ⟨k, p, q, hts, hq⟩ := hseam (.eof hn hk) hlaid hx hb.1 hb.2
      exact ⟨[], k, p, q, hts, hq⟩
    · have hne := (advances_joined hends hlaid hx hstart hb (advances_of_next hn)).1 hk
      exact absurd (hlast t rfl) hne
  | @cons s v t ts hn hk hv ih =>
    by_cases hb : s.layout = .lineStart ∧ s.atMargin.rest = []
    · obtain ⟨k, p, q, hts, hq⟩ := hseam (.cons hn hk hv) hlaid hx hb.1 hb.2
      exact ⟨[], k, p, q, hts, hq⟩
    · have ha := advances_of_next hn
      obtain ⟨-, v', ha', hx', hstart'⟩ := advances_joined hends hlaid hx hstart hb ha
      have hlast' : ∀ u ∈ ts.getLast?, u.pos = Position.start.afterAll (utf8 source) := by
        intro u hu
        apply hlast u
        cases ts with
        | nil => cases hu
        | cons _ _ => exact hu
      obtain ⟨front, k, p, q, hts, hq⟩ := ih hlast' (hlaid.step ha hk) hx' hstart'
      exact ⟨t :: front, k, p, q, by rw [hts]; rfl, .cons ha'.next_eq hk hq⟩

end Scanner

namespace TokenStream

theorem ofSource_eq_iff_tokens {source : String} {ts : List Token} :
    ofSource source = ⟨ts, none⟩ ↔ (Scanner.ofBytes (utf8 source)).Tokens ts := by
  constructor
  · intro h
    obtain ⟨seen, u, hr, ⟨t, v, he, ha, hk⟩ | ⟨e, he, -⟩⟩ := ofSource_reads source
    · rw [he] at h
      cases h
      exact hr.tokens (.eof ha.next_eq hk)
    · rw [he] at h
      cases h
  · intro h
    obtain ⟨seen, u, t, v, rfl, hr, ha, hk⟩ := h.reads
    exact ofSource_of_reads hr ha hk

/-- The tokens of one text behind another that ends with a line break. -/
theorem ofSource_append {source other : String} (hends : EndsLine (utf8 source))
    {first second : List Token} (hsource : ofSource source = ⟨first, none⟩)
    (hother : ofSource other = ⟨second, none⟩)
    (hlast : ∀ t ∈ first.getLast?, t.pos = Position.start.afterAll (utf8 source))
    (hindent : ∀ t ∈ second.head?, t.kind ≠ .indent) :
    ∃ front k p q, first = front ++ (List.replicate k ⟨.dedent, p⟩ ++ [⟨.eof, p⟩]) ∧
      ofSource (source ++ other) = ⟨front ++ (List.replicate k ⟨.dedent, q⟩ ++
        second.map (Token.down ((utf8 source).count Byte.lineFeed))), none⟩ := by
  have hx : Scanner.Exchanged [] (utf8 other) (.ofBytes (utf8 source))
      (.ofBytes (utf8 (source ++ other))) := by
    refine ⟨utf8 source, (List.append_nil _).symm, ?_⟩
    rw [Utf8.utf8_append]
    rfl
  obtain ⟨front, k, p, q, hfirst, hjoined⟩ :=
    (ofSource_eq_iff_tokens.1 hsource).joined hends (ofSource_eq_iff_tokens.1 hother) hindent hlast
      (laid_ofBytes _) hx fun _ => rfl
  exact ⟨front, k, p, q, hfirst, ofSource_eq_iff_tokens.2 hjoined⟩

end TokenStream

end Mython
