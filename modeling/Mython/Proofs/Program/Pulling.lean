import Mathlib.Data.Nat.Find
import Mython.Proofs.Program.Following
import Mython.Proofs.Program.Language
import Mython.Proofs.Token.Continuation

namespace Mython

namespace TokenStream

open Token (Kind)

/-- A stream that ends with the end of the text, unless an error follows. -/
def Ends (s : TokenStream) : Prop :=
  s.fault = none → (s.tokens.map (·.kind)).getLast? = some .eof

/-- The answer of a parser is settled by some tokens, whatever follows them. -/
def Settles (pulled : List Token) (r : Except SyntaxError Program) : Prop :=
  ∀ more fault, (⟨pulled ++ more, fault⟩ : TokenStream).parse = r

/-- A parser asks for a token behind some tokens: it meets whatever error stands there. -/
def Demands (pulled : List Token) : Prop :=
  ∀ e, (⟨pulled, some e⟩ : TokenStream).parse = .error e

/-- What a parser does with a stream that has a token. -/
theorem parse_cons (t : Token) (ts : List Token) (fault : Option SyntaxError) :
    (⟨t :: ts, fault⟩ : TokenStream).parse =
      (Parse.program (ts.length + 3) ⟨t, ts, fault, []⟩).map Prod.fst := rfl

/-- The window through which the tokens of a stream are seen in front of more of them. -/
def window (s : TokenStream) (more : List Token) (other : Option SyntaxError) : Window where
  lines := 0
  known := []
  whole := s.tokens
  fault := s.fault
  other := other
  tail := []
  more := more
  strict := True
  strict_lines _ := rfl
  strict_known _ := rfl
  strict_tail _ := rfl
  conversion := Window.conversion_nil

theorem excerpt_window {t : Token} {ts : List Token} {fault : Option SyntaxError}
    (hs : Ends ⟨t :: ts, fault⟩) (more : List Token) (other : Option SyntaxError) :
    (window ⟨t :: ts, fault⟩ more other).Excerpt ⟨t, ts, fault, []⟩ ⟨t, ts ++ more, other, []⟩ where
  fault := rfl
  ends := hs
  suffix := List.suffix_refl _
  tokens := by
    refine ⟨t :: ts, t :: ts, List.cons_ne_nil _ _, (List.append_nil _).symm, rfl, ?_⟩
    exact List.forall₂_same.2 fun u _ => ⟨rfl, fun _ => rfl⟩
  other := rfl
  classes := rfl

/-- An error is that of the stream, or one of the grammar at one of its tokens. -/
theorem parse_error {s : TokenStream} (hs : s.Ends) {e : SyntaxError} (h : s.parse = .error e) :
    s.fault = some e ∨ e.cause.isGrammar = true ∧ ∃ t ∈ s.tokens, t.pos = e.pos := by
  obtain ⟨tokens, fault⟩ := s
  cases tokens with
  | nil =>
    cases fault with
    | some e' =>
      cases h
      exact Or.inl rfl
    | none => simpa using hs rfl
  | cons t ts =>
    rw [parse_cons] at h
    have hfollows := Parse.Follows.program (w := window ⟨t :: ts, fault⟩ [] none) (S := Kind.Any)
      (Nat.le_refl (ts.length + 3))
    cases hrun : Parse.program (ts.length + 3) ⟨t, ts, fault, []⟩ with
    | ok r =>
      rw [hrun] at h
      cases h
    | error e' =>
      rw [hrun] at h
      cases h
      have hcount : (⟨t, ts, fault, []⟩ : Cursor).count < ts.length + 3 := by
        show ts.length + 1 < ts.length + 3
        omega
      exact hfollows.fails (excerpt_window hs [] none).toHolds trivial hcount hrun

/-- A reader of programs does with tokens what one with a lesser bound, which is still enough, does
with the first of them, or the latter asks for more. -/
theorem program_append {t : Token} {ts : List Token} {fault : Option SyntaxError}
    (hs : Ends ⟨t :: ts, fault⟩) (more : List Token) (other : Option SyntaxError)
    {bound bound' : Nat} (henough : ts.length + 1 < bound) (hbound : bound ≤ bound') :
    (Parse.program bound' ⟨t, ts ++ more, other, []⟩).map Prod.fst =
        (Parse.program bound ⟨t, ts, fault, []⟩).map Prod.fst ∨
      ∃ e, fault = some e ∧ Parse.program bound ⟨t, ts, fault, []⟩ = .error e ∧
        (more = [] → ∀ e', other = some e' →
          Parse.program bound' ⟨t, ts ++ more, other, []⟩ = .error e') := by
  have hfollows := Parse.Follows.program (w := window ⟨t :: ts, fault⟩ more other) (S := Kind.Any)
    hbound
  have hexcerpt := excerpt_window hs more other
  cases hrun : Parse.program bound ⟨t, ts, fault, []⟩ with
  | ok r =>
    obtain ⟨p, c'⟩ := r
    obtain ⟨d', hd, -⟩ := hfollows.answers hexcerpt trivial henough hrun c'.count_pos
    have hsame : p.down 0 = p := congrArg Program.mk (Stmt.downAll_zero p.body)
    left
    rw [hd]
    exact congrArg Except.ok hsame
  | error e =>
    rcases hfollows.failsToo trivial hexcerpt trivial henough hrun with ⟨hfault, hend⟩ | hd
    · exact Or.inr ⟨e, hfault, rfl, hend⟩
    · rw [hd]
      exact Or.inl rfl

/-- A parser does with a stream what it does with the first part of it, or it asks for more. -/
theorem parse_append {s : TokenStream} (hs : s.Ends) (more : List Token)
    (other : Option SyntaxError) :
    (⟨s.tokens ++ more, other⟩ : TokenStream).parse = s.parse ∨
      ∃ e, s.fault = some e ∧ s.parse = .error e ∧ (more = [] → ∀ e', other = some e' →
        (⟨s.tokens ++ more, other⟩ : TokenStream).parse = .error e') := by
  obtain ⟨tokens, fault⟩ := s
  cases tokens with
  | nil =>
    cases fault with
    | some e =>
      refine Or.inr ⟨e, rfl, rfl, ?_⟩
      rintro rfl e' rfl
      rfl
    | none => simpa using hs rfl
  | cons t ts =>
    have hle : ts.length + 3 ≤ (ts ++ more).length + 3 := by
      rw [List.length_append]
      omega
    simp only [List.cons_append, parse_cons]
    rcases program_append hs more other (by omega) hle with h | ⟨e, hfault, hrun, hend⟩
    · exact Or.inl h
    · refine Or.inr ⟨e, hfault, by rw [hrun]; rfl, fun hmore e' he' => ?_⟩
      rw [hend hmore e' he']
      rfl

/-- The end of a text is the last token that a parser asks for. -/
theorem settles_of_ends {s : TokenStream} (hs : s.Ends) (hnone : s.fault = none) :
    Settles s.tokens s.parse := by
  intro more fault
  rcases parse_append hs more fault with h | ⟨e, he, -⟩
  · exact h
  · rw [hnone] at he
    cases he

/-- Some error that no reader of tokens makes up itself. -/
def marker : SyntaxError := ⟨.strayByte 0, .start⟩

theorem ends_of_fault (ts : List Token) (e : SyntaxError) : Ends ⟨ts, some e⟩ := by
  rintro ⟨⟩

/-- A parser that asks for a token where one error stands asks for it where another one stands. -/
theorem demands_of_marker {ts : List Token}
    (h : (⟨ts, some marker⟩ : TokenStream).parse = .error marker) : Demands ts := by
  intro e
  rcases parse_append (ends_of_fault ts marker) [] (some e) with hsame | ⟨-, -, -, hend⟩
  · rw [h, List.append_nil] at hsame
    rcases parse_error (ends_of_fault ts e) hsame with hfault | ⟨hcause, -⟩
    · rw [hsame, Option.some.inj hfault]
    · cases hcause
  · simpa using hend rfl e rfl

/-- A parser that does not meet the error behind some tokens has settled its answer by them. -/
theorem settles_of_marker {ts : List Token} {r : Except SyntaxError Program}
    (h : (⟨ts, some marker⟩ : TokenStream).parse = r) (hr : r ≠ .error marker) :
    Settles ts r := by
  intro more fault
  rcases parse_append (ends_of_fault ts marker) more fault with hsame | ⟨e, he, hfail, -⟩
  · exact hsame.trans h
  · cases he
    exact absurd (h.symm.trans hfail) hr

/-- Either a parser asks for all tokens of a stream and meets its error, or its answer is settled by
the tokens up to some lookahead, each of which it has asked for. -/
theorem pulls (s : TokenStream) (hs : s.Ends) :
    (∃ e, s.fault = some e ∧ s.parse = .error e ∧ ∀ us, us <+: s.tokens → Demands us) ∨
      ∃ seen t rest, s.tokens = seen ++ t :: rest ∧ Settles (seen ++ [t]) s.parse ∧
        ∀ us, us <+: seen → Demands us := by
  by_cases hall : ∀ n, (⟨s.tokens.take n, some marker⟩ : TokenStream).parse = .error marker
  · have hdemands : ∀ us, us <+: s.tokens → Demands us := by
      intro us hus
      apply demands_of_marker
      rw [List.prefix_iff_eq_take.1 hus]
      exact hall _
    left
    cases hfault : s.fault with
    | some e =>
      refine ⟨e, rfl, ?_, hdemands⟩
      have hmet := hdemands s.tokens (List.prefix_refl _) e
      rwa [← hfault] at hmet
    | none =>
      have hsettled := settles_of_ends hs hfault [] (some marker)
      rw [List.append_nil, hdemands s.tokens (List.prefix_refl _) marker] at hsettled
      rcases parse_error hs hsettled.symm with h | ⟨hcause, -⟩
      · rw [hfault] at h
        cases h
      · cases hcause
  · classical
    have hex : ∃ n, (⟨s.tokens.take n, some marker⟩ : TokenStream).parse ≠ .error marker :=
      not_forall.1 hall
    have hfound := Nat.find_spec hex
    have hleast : ∀ m, m < Nat.find hex →
        (⟨s.tokens.take m, some marker⟩ : TokenStream).parse = .error marker :=
      fun m hm => not_not.1 (Nat.find_min hex hm)
    generalize Nat.find hex = n at hfound hleast
    cases n with
    | zero => exact absurd rfl hfound
    | succ k =>
      have hk : k < s.tokens.length := by
        by_contra hge
        have hsame : s.tokens.take (k + 1) = s.tokens.take k := by
          rw [List.take_of_length_le (by omega), List.take_of_length_le (by omega)]
        rw [hsame] at hfound
        exact hfound (hleast k (Nat.lt_succ_self k))
      have hsplit : s.tokens = s.tokens.take k ++ s.tokens[k] :: s.tokens.drop (k + 1) := by
        rw [← List.drop_eq_getElem_cons hk, List.take_append_drop]
      have htake : s.tokens.take (k + 1) = s.tokens.take k ++ [s.tokens[k]] :=
        List.take_succ_eq_append_getElem hk
      right
      refine ⟨s.tokens.take k, s.tokens[k], s.tokens.drop (k + 1), hsplit, ?_, ?_⟩
      · have hsettled := settles_of_marker rfl hfound
        have hwhole := hsettled (s.tokens.drop (k + 1)) s.fault
        rw [List.take_append_drop] at hwhole
        rw [← htake, show s.parse = _ from hwhole]
        exact hsettled
      · intro us hus
        apply demands_of_marker
        have hlength := hus.length_le
        rw [List.length_take] at hlength
        rw [List.prefix_iff_eq_take.1 (hus.trans (List.take_prefix k s.tokens))]
        exact hleast _ (by omega)

end TokenStream

namespace Lexeme

/-- What is wrong with a lexeme. -/
theorem read_error {first : UInt8} {rest : List UInt8} {cause : SyntaxError.Cause}
    (h : (read first rest).kind = .error cause) :
    cause = .strayByte first ∨ cause = .unclosedText ∨
      ∃ digits, cause = .numberOutOfRange digits := by
  unfold read at h
  split at h
  · cases h
  split at h
  · simp only [ofQuote] at h
    split at h
    · cases h
      exact Or.inr (Or.inl rfl)
    · cases h
  split at h
  · simp only [ofDigit] at h
    split at h
    · cases h
    · cases h
      exact Or.inr (Or.inr ⟨_, rfl⟩)
  split at h
  · cases h
  split at h
  · simp only [ofMark] at h
    split at h <;> cases h
  · cases h
    exact Or.inl rfl

end Lexeme

namespace SyntaxError

/-- An error of tokens or layout, by its code. -/
def OfText (e : SyntaxError) : Prop := e.code ∈ ["L001", "L002", "L003", "L004"]

/-- An error of the grammar, by its code. -/
def OfGrammar (e : SyntaxError) : Prop := e.code ∈ ["P001", "P002", "P003"]

instance (e : SyntaxError) : Decidable e.OfGrammar :=
  inferInstanceAs (Decidable (e.code ∈ ["P001", "P002", "P003"]))

theorem ofGrammar_of_cause {e : SyntaxError} (h : e.cause.isGrammar = true) : e.OfGrammar := by
  obtain ⟨cause, pos⟩ := e
  cases cause with
  | expectedExpression | notAssignable | conversionArity | expectedToken | expectedName
  | unknownClass => simp [OfGrammar, code, Cause.code]
  | _ => cases h

theorem OfText.not_ofGrammar {e : SyntaxError} (h : e.OfText) : ¬ e.OfGrammar := by
  intro hg
  simp only [OfText, OfGrammar, List.mem_cons, List.not_mem_nil, or_false] at h hg
  rcases h with h | h | h | h <;> rw [h] at hg <;> revert hg <;> decide

end SyntaxError

/-- What a scanner gives up with is an error of tokens or layout. -/
theorem Scanner.Fails.ofText {s : Scanner} {e : SyntaxError} (h : s.Fails e) : e.OfText := by
  cases h with
  | broken hl hr hodd => simp [SyntaxError.OfText, SyntaxError.code, SyntaxError.Cause.code]
  | deep hl hr heven hlt hne => simp [SyntaxError.OfText, SyntaxError.code, SyntaxError.Cause.code]
  | @lexeme a first rest cause ha hr hk =>
    rcases Lexeme.read_error hk with rfl | rfl | ⟨digits, rfl⟩ <;>
      simp [SyntaxError.OfText, SyntaxError.code, SyntaxError.Cause.code]

namespace TokenStream

theorem marker_ofText : marker.OfText := by
  simp [SyntaxError.OfText, SyntaxError.code, SyntaxError.Cause.code, marker]

theorem ofSource_ends (source : String) : (ofSource source).Ends := by
  intro hnone
  obtain ⟨seen, u, -, ⟨t, v, he, -, hk⟩ | ⟨e, he, -⟩⟩ := ofSource_reads source
  · rw [he]
    simp [hk]
  · rw [he] at hnone
    cases hnone

theorem ofText_of_fault {source : String} {e : SyntaxError}
    (h : (ofSource source).fault = some e) : e.OfText := by
  obtain ⟨seen, u, -, ⟨t, v, he, -, -⟩ | ⟨e', he, hf⟩⟩ := ofSource_reads source
  · rw [he] at h
    cases h
  · rw [he] at h
    cases h
    exact hf.ofText

theorem tokenize_eq_ok {source : String} {ts : List Token} :
    tokenize source = .ok ts ↔ ofSource source = ⟨ts, none⟩ := by
  rw [tokenize]
  generalize ofSource source = stream
  obtain ⟨tokens, fault⟩ := stream
  cases fault <;> simp

theorem tokenize_eq_error {source : String} {e : SyntaxError} :
    tokenize source = .error e ↔ (ofSource source).fault = some e := by
  rw [tokenize]
  generalize ofSource source = stream
  obtain ⟨tokens, fault⟩ := stream
  cases fault <;> simp

end TokenStream

open TokenStream

theorem tokenize_of_parse {source : String} {p : Program} (h : parse source = .ok p) :
    ∃ ts, tokenize source = .ok ts := by
  obtain ⟨ts, hts, -⟩ := Grammar.derives_of_parse h
  exact ⟨ts, hts⟩

/-- What parsing gives up with is what the tokens end in, or an error of the grammar. -/
theorem error_of_parse {source : String} {e : SyntaxError} (h : parse source = .error e) :
    tokenize source = .error e ∨ e.OfGrammar := by
  rcases parse_error (ofSource_ends source) h with hfault | ⟨hcause, -⟩
  · exact Or.inl (tokenize_eq_error.2 hfault)
  · exact Or.inr (SyntaxError.ofGrammar_of_cause hcause)

/-- An error of the grammar is settled by the tokens up to the lookahead, and is at one of them. -/
theorem settled_of_grammar {source : String} {e : SyntaxError} (h : parse source = .error e)
    (hgrammar : e.OfGrammar) : ∃ seen lookahead rest,
      (ofSource source).tokens = seen ++ lookahead :: rest ∧
      (∃ t ∈ seen ++ [lookahead], t.pos = e.pos) ∧
      Settles (seen ++ [lookahead]) (.error e) ∧ ∀ us, us <+: seen → Demands us := by
  have hparse : (ofSource source).parse = .error e := h
  rcases pulls (ofSource source) (ofSource_ends source) with
    ⟨e', hfault, hmet, -⟩ | ⟨seen, t, rest, hsplit, hsettled, hdemands⟩
  · rw [hparse] at hmet
    cases hmet
    exact absurd hgrammar (ofText_of_fault hfault).not_ofGrammar
  · rw [hparse] at hsettled
    refine ⟨seen, t, rest, hsplit, ?_, hsettled, hdemands⟩
    have hcut := hsettled [] (some marker)
    rw [List.append_nil] at hcut
    rcases parse_error (ends_of_fault _ _) hcut with hfault | ⟨-, hplace⟩
    · cases hfault
      exact absurd hgrammar marker_ofText.not_ofGrammar
    · exact hplace

theorem settles_of_tokenize {source : String} {ts : List Token} (h : tokenize source = .ok ts) :
    Settles ts (parse source) := by
  have hstream := tokenize_eq_ok.1 h
  have hsettled := settles_of_ends (ofSource_ends source) (by rw [hstream])
  rw [hstream] at hsettled
  show Settles ts (ofSource source).parse
  rw [hstream]
  exact hsettled

/-- Tokens that end in front of the text's end do so at the word `eof`, whatever is behind it. -/
theorem exchange_behind_eof {source : String} {ts : List Token} {last : Token}
    (h : tokenize source = .ok ts) (hlast : ts.getLast? = some last)
    (hpos : last.pos ≠ Position.start.afterAll (utf8 source)) :
    ∃ front back, source = front ++ "eof" ++ back ∧
      last.pos = Position.start.afterAll (utf8 front) ∧
      ∀ other, (∀ b ∈ (utf8 other).head?, Byte.isWord b = false) →
        tokenize (front ++ "eof" ++ other) = tokenize source ∧
        parse (front ++ "eof" ++ other) = parse source := by
  have hstream := tokenize_eq_ok.1 h
  obtain ⟨seen, rfl⟩ := List.getLast?_eq_some_iff.1 hlast
  obtain ⟨front, back, hsource, hplace, -, hother⟩ := ofSource_behind_eof hstream hpos
  refine ⟨front, back, hsource, hplace, fun other hword => ⟨?_, ?_⟩⟩
  · rw [tokenize, hother other hword, tokenize]
  · rw [parse, hother other hword, parse]

/-- Parsing asks for the tokens of a text one by one, and agrees with giving them all at once. A
text that is parsed has its tokens; an error of tokens or layout is that of the tokens; where the
tokens end in an error, so does parsing, maybe sooner by an error of the grammar. An error of the
grammar is at one of the tokens up to the lookahead: the answer is settled by these, and each of
them was asked for. Nothing behind the end is asked for, and what stands behind the word `eof`
decides nothing. -/
theorem parse_agrees_with_tokenize (source : String) :
    (∀ p, parse source = .ok p → ∃ ts, tokenize source = .ok ts) ∧
    (∀ e, parse source = .error e → e.OfText → tokenize source = .error e) ∧
    (∀ e, tokenize source = .error e →
      ∃ e', parse source = .error e' ∧ (e' = e ∨ e'.OfGrammar)) ∧
    (∀ e, parse source = .error e → e.OfText ∨ e.OfGrammar) ∧
    (∀ e, parse source = .error e → e.OfGrammar → ∃ seen lookahead rest,
      (ofSource source).tokens = seen ++ lookahead :: rest ∧
      (∃ t ∈ seen ++ [lookahead], t.pos = e.pos) ∧
      Settles (seen ++ [lookahead]) (.error e) ∧ ∀ us, us <+: seen → Demands us) ∧
    (∀ ts, tokenize source = .ok ts → Settles ts (parse source)) ∧
    (∀ ts last, tokenize source = .ok ts → ts.getLast? = some last →
      last.pos ≠ Position.start.afterAll (utf8 source) →
      ∃ front back, source = front ++ "eof" ++ back ∧
        last.pos = Position.start.afterAll (utf8 front) ∧
        ∀ other, (∀ b ∈ (utf8 other).head?, Byte.isWord b = false) →
          tokenize (front ++ "eof" ++ other) = tokenize source ∧
          parse (front ++ "eof" ++ other) = parse source) := by
  refine ⟨fun _ => tokenize_of_parse, ?_, ?_, ?_, fun _ => settled_of_grammar,
    fun _ => settles_of_tokenize, fun _ _ => exchange_behind_eof⟩
  · intro e he htext
    exact (error_of_parse he).resolve_right htext.not_ofGrammar
  · intro e he
    cases hp : parse source with
    | ok p =>
      obtain ⟨ts, hts⟩ := tokenize_of_parse hp
      rw [he] at hts
      cases hts
    | error e' =>
      refine ⟨e', rfl, ?_⟩
      rcases error_of_parse hp with hsame | hgrammar
      · rw [he] at hsame
        cases hsame
        exact Or.inl rfl
      · exact Or.inr hgrammar
  · intro e he
    rcases error_of_parse he with htext | hgrammar
    · exact Or.inl (ofText_of_fault (tokenize_eq_error.1 htext))
    · exact Or.inr hgrammar

/-- A parenthesis that closes nothing is an error of the grammar at that token, and the word behind
it is never asked for. -/
theorem parse_agrees_with_tokenize_stray :
    parse "print ) x" = .error ⟨.expectedExpression (.mark ')'), ⟨1, 7⟩⟩ ∧
      ∃ seen lookahead rest, (ofSource "print ) x").tokens = seen ++ lookahead :: rest ∧
        Settles (seen ++ [lookahead]) (parse "print ) x") := by
  have hparse : parse "print ) x" = .error ⟨.expectedExpression (.mark ')'), ⟨1, 7⟩⟩ := by
    have hanswer : (parse "print ) x").map (fun _ => ()) =
        .error ⟨.expectedExpression (.mark ')'), ⟨1, 7⟩⟩ := by decide +kernel
    cases hp : parse "print ) x" with
    | ok p =>
      rw [hp] at hanswer
      cases hanswer
    | error e =>
      rw [hp] at hanswer
      cases hanswer
      rfl
  obtain ⟨-, -, -, -, hgrammar, -⟩ := parse_agrees_with_tokenize "print ) x"
  obtain ⟨seen, t, rest, hsplit, -, hsettled, -⟩ := hgrammar _ hparse (by decide)
  rw [hparse]
  exact ⟨rfl, seen, t, rest, hsplit, hsettled⟩

end Mython
