import Mathlib.Data.List.TakeWhile
import Mython.Token.Stream

/-! `Advances` lists every way to hand out a token, `Arrives` what is skipped in front of a lexeme;
a run of requests is `Reads`. -/

namespace Mython

namespace Token.Kind

/-- Tokens that have a text of their own: all but those of layout and the end. -/
def isContent : Kind → Bool
  | newline | indent | dedent | eof => false
  | _ => true

end Token.Kind

namespace Lexeme

/-- What a lexeme inside a line may be: content, the end, or an error that is not one of layout. -/
def Inline : Except SyntaxError.Cause Token.Kind → Prop
  | .ok kind => kind.isContent = true ∨ kind = .eof
  | .error cause => cause.code ≠ "L004"

theorem ofQuote_inline (quote : UInt8) (rest : List UInt8) : Inline (ofQuote quote rest).kind := by
  simp only [ofQuote]
  split
  · simp [Inline, SyntaxError.Cause.code]
  · exact Or.inl rfl

theorem ofDigit_inline (first : UInt8) (rest : List UInt8) : Inline (ofDigit first rest).kind := by
  simp only [ofDigit]
  split
  · exact Or.inl rfl
  · simp [Inline, SyntaxError.Cause.code]

theorem ofLetter_inline (first : UInt8) (rest : List UInt8) :
    Inline (ofLetter first rest).kind := by
  simp only [ofLetter, Token.Kind.ofWord]
  split
  · exact Or.inl rfl
  · split
    · exact Or.inr rfl
    · exact Or.inl rfl

theorem withEquals?_content {c : Char} {kind : Token.Kind}
    (hk : Token.Kind.withEquals? c = some kind) : kind.isContent = true := by
  unfold Token.Kind.withEquals? at hk
  split at hk
  · cases hk; rfl
  · cases hk; rfl
  · cases hk; rfl
  · cases hk; rfl
  · cases hk

theorem ofMark_inline (first : UInt8) (rest : List UInt8) : Inline (ofMark first rest).kind := by
  simp only [ofMark]
  split
  · rename_i hop _
    exact Or.inl (withEquals?_content hop)
  · exact Or.inl rfl

/-- A line feed reads as the end of a line. -/
theorem read_lineFeed (rest : List UInt8) : read Byte.lineFeed rest = ⟨1, .ok .newline⟩ := by
  simp [read]

/-- Nothing else does, and no lexeme opens or closes a block. -/
theorem read_inline {first : UInt8} (hf : first ≠ Byte.lineFeed) (rest : List UInt8) :
    Inline (read first rest).kind := by
  unfold read
  rw [if_neg hf]
  split
  · exact ofQuote_inline first rest
  split
  · exact ofDigit_inline first rest
  split
  · exact ofLetter_inline first rest
  split
  · exact ofMark_inline first rest
  · simp [Inline, SyntaxError.Cause.code]

end Lexeme

namespace Scanner

/-- The scanner behind the bytes at its head that satisfy `p`. -/
def past (s : Scanner) (p : UInt8 → Bool) : Scanner := s.skip (s.rest.takeWhile p).length

@[simp]
theorem rest_past (s : Scanner) (p : UInt8 → Bool) : (s.past p).rest = s.rest.dropWhile p := by
  have h : (s.rest.takeWhile p ++ s.rest.dropWhile p).drop (s.rest.takeWhile p).length =
      s.rest.dropWhile p := List.drop_left
  rw [List.takeWhile_append_dropWhile] at h
  exact h

theorem pos_past (s : Scanner) (p : UInt8 → Bool) :
    (s.past p).pos = s.pos.afterAll (s.rest.takeWhile p) := by
  have h : (s.rest.takeWhile p ++ s.rest.dropWhile p).take (s.rest.takeWhile p).length =
      s.rest.takeWhile p := List.take_left
  rw [List.takeWhile_append_dropWhile] at h
  simp only [past, skip, h]

/-- A scanner with nothing to skip stays where it is. -/
theorem past_eq_self {s : Scanner} {p : UInt8 → Bool} (h : ∀ b ∈ s.rest.head?, p b = false) :
    s.past p = s := by
  have hnil : s.rest.takeWhile p = [] := by
    cases hr : s.rest with
    | nil => rfl
    | cons b rest => simp [h b (by simp [hr])]
  simp [past, skip, hnil]

/-- The answer of a scanner that stands in front of a lexeme or of the end. -/
def answer (s : Scanner) : Answer :=
  match s.rest with
  | [] => s.finish
  | first :: rest =>
    let lexeme := Lexeme.read first rest
    let behind := s.skip lexeme.length
    match lexeme.kind with
    | .error cause => (.error ⟨cause, s.pos⟩, behind)
    | .ok kind =>
      let layout := if kind = .newline then .lineStart else s.layout
      (.ok ⟨kind, s.pos⟩, { behind with layout })

theorem token_eq (s : Scanner) : s.token = (s.past Byte.isInlineBlank).answer := rfl

/-- The spaces in front of the first token of the next line. -/
def margin (s : Scanner) : Nat := spaces (s.rest.takeWhile Byte.isBlank)

/-- The scanner in front of the first token of the next line. -/
def atMargin (s : Scanner) : Scanner := { s.past Byte.isBlank with layout := .inline }

@[simp]
theorem rest_atMargin (s : Scanner) : s.atMargin.rest = s.rest.dropWhile Byte.isBlank :=
  rest_past s Byte.isBlank

@[simp]
theorem indent_atMargin (s : Scanner) : s.atMargin.indent = s.indent := rfl

theorem head?_dropWhile_false {p : UInt8 → Bool} {run : List UInt8} :
    ∀ b ∈ (run.dropWhile p).head?, p b = false := by
  intro b hb
  have h := List.head?_dropWhile_not p run
  rw [Option.mem_def.mp hb] at h
  simpa using h

/-- No blank stands in front of the first token of a line. -/
theorem atMargin_not_blank (s : Scanner) : ∀ b ∈ s.atMargin.rest.head?, Byte.isBlank b = false := by
  rw [rest_atMargin]
  exact head?_dropWhile_false

theorem token_atMargin (s : Scanner) : s.atMargin.token = s.atMargin.answer := by
  rw [token_eq, past_eq_self]
  intro b hb
  have h := s.atMargin_not_blank b hb
  simp only [Byte.isBlank, Bool.or_eq_false_iff] at h
  exact h.1

/-- What a scanner skips before a lexeme or the end: blanks inside a line, and in front of a line
that neither opens nor closes a block also blank lines. -/
inductive Arrives (s : Scanner) : Scanner → Prop
  | inline (hl : s.layout = .inline) : Arrives s (s.past Byte.isInlineBlank)
  | ended (hl : s.layout = .lineStart) (hr : s.atMargin.rest = []) : Arrives s s.atMargin
  | level (hl : s.layout = .lineStart) (hr : s.atMargin.rest ≠ [])
      (heven : s.margin % indentWidth = 0) (heq : s.margin = s.indent) : Arrives s s.atMargin

theorem line_eq (s : Scanner) :
    s.line = if s.atMargin.rest.isEmpty then s.atMargin.token
      else if s.margin % indentWidth ≠ 0 then s.atMargin.fails (.brokenIndent s.margin)
      else if s.margin = s.indent then s.atMargin.token
      else if s.margin < s.indent then s.atMargin.dedent s.margin
      else if s.margin = s.indent + indentWidth then
        { s.atMargin with indent := s.margin }.yields .indent
      else s.atMargin.fails .deepIndent := rfl

theorem scan_of_arrives {s a : Scanner} (h : s.Arrives a) : s.scan = a.answer := by
  cases h with
  | inline hl => rw [scan, hl]; exact token_eq s
  | ended hl hr => rw [scan, hl]; simp only [line_eq, hr, List.isEmpty_nil, if_true, token_atMargin]
  | level hl hr heven heq =>
    have hr' : ¬ s.atMargin.rest.isEmpty = true := by simpa using hr
    rw [scan, hl]
    simp only [line_eq]
    rw [if_neg hr', if_neg (not_not_intro heven), if_pos heq, token_atMargin]

theorem layout_of_arrives {s a : Scanner} (h : s.Arrives a) : a.layout = .inline := by
  cases h with
  | inline hl => exact hl
  | ended _ _ => rfl
  | level _ _ _ _ => rfl

/-- The scanner that has closed one block on the way to `target` spaces. -/
def closed (s : Scanner) (target : Nat) : Scanner where
  rest := s.rest
  pos := s.pos
  indent := s.indent - indentWidth
  layout := if s.indent - indentWidth = target then .inline else .closing target
  current := ⟨.dedent, s.pos⟩

/-- The scanner that has handed out a lexeme of a given length. -/
def behind (s : Scanner) (length : Nat) (kind : Token.Kind) : Scanner where
  rest := s.rest.drop length
  pos := s.pos.afterAll (s.rest.take length)
  indent := s.indent
  layout := if kind = .newline then .lineStart else .inline
  current := ⟨kind, s.pos⟩

/-- Every way in which a request gives a token. -/
inductive Advances (s : Scanner) : Token → Scanner → Prop
  | close {target : Nat} (hl : s.layout = .closing target) :
      Advances s ⟨.dedent, s.pos⟩ (s.closed target)
  | dedent (hl : s.layout = .lineStart) (hr : s.atMargin.rest ≠ [])
      (heven : s.margin % indentWidth = 0) (hlt : s.margin < s.indent) :
      Advances s ⟨.dedent, s.atMargin.pos⟩ (s.atMargin.closed s.margin)
  | indent (hl : s.layout = .lineStart) (hr : s.atMargin.rest ≠ [])
      (heven : s.margin % indentWidth = 0) (heq : s.margin = s.indent + indentWidth) :
      Advances s ⟨.indent, s.atMargin.pos⟩
        { s.atMargin with indent := s.margin, current := ⟨.indent, s.atMargin.pos⟩ }
  | lexeme {a : Scanner} {first : UInt8} {rest : List UInt8} {kind : Token.Kind}
      (ha : s.Arrives a) (hr : a.rest = first :: rest)
      (hk : (Lexeme.read first rest).kind = .ok kind) :
      Advances s ⟨kind, a.pos⟩ (a.behind (Lexeme.read first rest).length kind)
  | newline {a : Scanner} (ha : s.Arrives a) (hr : a.rest = [])
      (hc : a.current.kind.closesLine = false) :
      Advances s ⟨.newline, a.pos⟩ { a with current := ⟨.newline, a.pos⟩ }
  | unwind {a : Scanner} (ha : s.Arrives a) (hr : a.rest = [])
      (hc : a.current.kind.closesLine = true) (hi : 0 < a.indent) :
      Advances s ⟨.dedent, a.pos⟩
        { a with indent := a.indent - indentWidth, current := ⟨.dedent, a.pos⟩ }
  | eof {a : Scanner} (ha : s.Arrives a) (hr : a.rest = [])
      (hc : a.current.kind.closesLine = true) (hi : a.indent = 0) :
      Advances s ⟨.eof, a.pos⟩ { a with current := ⟨.eof, a.pos⟩ }

/-- Every way in which a request gives an error. -/
inductive Fails (s : Scanner) : SyntaxError → Prop
  | broken (hl : s.layout = .lineStart) (hr : s.atMargin.rest ≠ [])
      (hodd : s.margin % indentWidth ≠ 0) : Fails s ⟨.brokenIndent s.margin, s.atMargin.pos⟩
  | deep (hl : s.layout = .lineStart) (hr : s.atMargin.rest ≠ [])
      (heven : s.margin % indentWidth = 0) (hlt : s.indent < s.margin)
      (hne : s.margin ≠ s.indent + indentWidth) : Fails s ⟨.deepIndent, s.atMargin.pos⟩
  | lexeme {a : Scanner} {first : UInt8} {rest : List UInt8} {cause : SyntaxError.Cause}
      (ha : s.Arrives a) (hr : a.rest = first :: rest)
      (hk : (Lexeme.read first rest).kind = .error cause) : Fails s ⟨cause, a.pos⟩

theorem next_of_scan_ok {s s' : Scanner} {t : Token} (h : s.scan = (.ok t, s')) :
    s.next = (.ok t, { s' with current := t }) := by
  simp only [next, h]

theorem Advances.next_eq {s s' : Scanner} {t : Token} (h : s.Advances t s') :
    s.next = (.ok t, s') := by
  cases h with
  | @close target hl =>
    have hs : s.scan = s.dedent target := by rw [scan, hl]
    exact next_of_scan_ok hs
  | dedent hl hr heven hlt =>
    have hr' : ¬ s.atMargin.rest.isEmpty = true := by simpa using hr
    have hs : s.scan = s.atMargin.dedent s.margin := by
      rw [scan, hl]
      simp only [line_eq]
      rw [if_neg hr', if_neg (not_not_intro heven), if_neg (Nat.ne_of_lt hlt), if_pos hlt]
    exact next_of_scan_ok hs
  | indent hl hr heven heq =>
    have hr' : ¬ s.atMargin.rest.isEmpty = true := by simpa using hr
    have hne : s.margin ≠ s.indent := by rw [heq, indentWidth]; omega
    have hge : ¬ s.margin < s.indent := by rw [heq, indentWidth]; omega
    have hs : s.scan = { s.atMargin with indent := s.margin }.yields .indent := by
      rw [scan, hl]
      simp only [line_eq]
      rw [if_neg hr', if_neg (not_not_intro heven), if_neg hne, if_neg hge, if_pos heq]
    exact next_of_scan_ok hs
  | @lexeme a first rest kind ha hr hk =>
    have hs : s.scan = (.ok ⟨kind, a.pos⟩,
        { a.behind (Lexeme.read first rest).length kind with current := a.current }) := by
      rw [scan_of_arrives ha]
      simp only [answer, hr, hk, layout_of_arrives ha, skip, behind]
    exact next_of_scan_ok hs
  | @newline a ha hr hc =>
    have hs : s.scan = a.yields .newline := by
      rw [scan_of_arrives ha]
      simp only [answer, hr, finish, hc, Bool.not_false, if_true]
    exact next_of_scan_ok hs
  | @unwind a ha hr hc hi =>
    have hs : s.scan = { a with indent := a.indent - indentWidth }.yields .dedent := by
      rw [scan_of_arrives ha]
      simp only [answer, hr, finish, hc, Bool.not_true, Bool.false_eq_true, if_false, hi, if_true]
    exact next_of_scan_ok hs
  | @eof a ha hr hc hi =>
    have hs : s.scan = a.yields .eof := by
      rw [scan_of_arrives ha]
      simp only [answer, hr, finish, hc, Bool.not_true, Bool.false_eq_true, if_false, hi,
        Nat.lt_irrefl]
    exact next_of_scan_ok hs

theorem next_of_scan_error {s s' : Scanner} {e : SyntaxError} (h : s.scan = (.error e, s')) :
    s.next = (.error e, s') := by
  simp only [next, h]

/-- Where a request that fails leaves a scanner: in front of the line whose margin is refused, or
behind the bytes that are no token. -/
inductive Stops (s : Scanner) : Scanner → Prop
  | margin (hl : s.layout = .lineStart) (hr : s.atMargin.rest ≠ []) (hpos : 0 < s.margin) :
      Stops s s.atMargin
  | lexeme {a : Scanner} {first : UInt8} {rest : List UInt8} (ha : s.Arrives a)
      (hr : a.rest = first :: rest) : Stops s (a.skip (Lexeme.read first rest).length)

theorem Fails.stops {s : Scanner} {e : SyntaxError} (h : s.Fails e) :
    ∃ s', s.Stops s' ∧ s.next = (.error e, s') := by
  cases h with
  | broken hl hr hodd =>
    have hr' : ¬ s.atMargin.rest.isEmpty = true := by simpa using hr
    have hs : s.scan = s.atMargin.fails (.brokenIndent s.margin) := by
      rw [scan, hl]
      simp only [line_eq]
      rw [if_neg hr', if_pos hodd]
    have hpos : 0 < s.margin := Nat.pos_of_ne_zero fun hz => hodd (by rw [hz, Nat.zero_mod])
    exact ⟨_, .margin hl hr hpos, next_of_scan_error hs⟩
  | deep hl hr heven hlt hne =>
    have hr' : ¬ s.atMargin.rest.isEmpty = true := by simpa using hr
    have hs : s.scan = s.atMargin.fails .deepIndent := by
      rw [scan, hl]
      simp only [line_eq]
      rw [if_neg hr', if_neg (not_not_intro heven), if_neg (Nat.ne_of_gt hlt),
        if_neg (Nat.lt_asymm hlt), if_neg hne]
    exact ⟨_, .margin hl hr (Nat.zero_lt_of_lt hlt), next_of_scan_error hs⟩
  | @lexeme a first rest cause ha hr hk =>
    have hs : s.scan = (.error ⟨cause, a.pos⟩, a.skip (Lexeme.read first rest).length) := by
      rw [scan_of_arrives ha]
      simp only [answer, hr, hk]
    exact ⟨_, .lexeme ha hr, next_of_scan_error hs⟩

theorem Fails.next_eq {s : Scanner} {e : SyntaxError} (h : s.Fails e) :
    ∃ s', s.next = (.error e, s') := by
  obtain ⟨s', -, hn⟩ := h.stops
  exact ⟨s', hn⟩

/-- A scanner that has arrived gives a token or an error. -/
theorem Arrives.advances_or_fails {s a : Scanner} (ha : s.Arrives a) :
    (∃ t s', s.Advances t s') ∨ ∃ e, s.Fails e := by
  cases hr : a.rest with
  | nil =>
    cases hc : a.current.kind.closesLine with
    | false => exact Or.inl ⟨_, _, .newline ha hr hc⟩
    | true =>
      rcases Nat.eq_zero_or_pos a.indent with hi | hi
      · exact Or.inl ⟨_, _, .eof ha hr hc hi⟩
      · exact Or.inl ⟨_, _, .unwind ha hr hc hi⟩
  | cons first rest =>
    cases hk : (Lexeme.read first rest).kind with
    | ok kind => exact Or.inl ⟨_, _, .lexeme ha hr hk⟩
    | error cause => exact Or.inr ⟨_, .lexeme ha hr hk⟩

theorem advances_or_fails (s : Scanner) : (∃ t s', s.Advances t s') ∨ ∃ e, s.Fails e := by
  cases hl : s.layout with
  | closing target => exact Or.inl ⟨_, _, .close hl⟩
  | inline => exact (Arrives.inline hl).advances_or_fails
  | lineStart =>
    by_cases hr : s.atMargin.rest = []
    · exact (Arrives.ended hl hr).advances_or_fails
    by_cases heven : s.margin % indentWidth = 0
    · rcases Nat.lt_trichotomy s.margin s.indent with hlt | heq | hgt
      · exact Or.inl ⟨_, _, .dedent hl hr heven hlt⟩
      · exact (Arrives.level hl hr heven heq).advances_or_fails
      · by_cases heq : s.margin = s.indent + indentWidth
        · exact Or.inl ⟨_, _, .indent hl hr heven heq⟩
        · exact Or.inr ⟨_, .deep hl hr heven hgt heq⟩
    · exact Or.inr ⟨_, .broken hl hr heven⟩

/-- A run of requests that gives tokens, none of them the end. -/
inductive Reads (s : Scanner) : List Token → Scanner → Prop
  | refl : Reads s [] s
  | snoc {seen : List Token} {t : Token} {u v : Scanner} (hr : Reads s seen u)
      (ha : u.Advances t v) (hk : t.kind ≠ .eof) : Reads s (seen ++ [t]) v

theorem Reads.cons {s u v : Scanner} {t : Token} {seen : List Token} (ha : s.Advances t u)
    (hk : t.kind ≠ .eof) (hr : u.Reads seen v) : s.Reads (t :: seen) v := by
  induction hr with
  | refl => exact .snoc .refl ha hk
  | snoc _ ha' hk' ih => exact .snoc ih ha' hk'

end Scanner

/-- A stream is a run of requests that stops at the end, at an error, or when requests run out. -/
theorem TokenStream.ofScanner_cases (n : Nat) (s : Scanner) :
    ∃ seen u, s.Reads seen u ∧
      ((∃ t v, ofScanner n s = ⟨seen ++ [t], none⟩ ∧ u.Advances t v ∧ t.kind = .eof) ∨
        (∃ e, ofScanner n s = ⟨seen, some e⟩ ∧ u.Fails e) ∨
        (ofScanner n s = ⟨seen, some ⟨.unfinished, u.pos⟩⟩ ∧ seen.length = n)) := by
  induction n generalizing s with
  | zero => exact ⟨[], s, .refl, Or.inr (Or.inr ⟨rfl, rfl⟩)⟩
  | succ n ih =>
    rcases s.advances_or_fails with ⟨t, v, ha⟩ | ⟨e, hf⟩
    · by_cases hk : t.kind = .eof
      · refine ⟨[], s, .refl, Or.inl ⟨t, v, ?_, ha, hk⟩⟩
        simp only [ofScanner, ha.next_eq, hk, if_true, List.nil_append]
      · obtain ⟨seen, u, hr, hcases⟩ := ih v
        have hstep : ofScanner (n + 1) s =
            ⟨t :: (ofScanner n v).tokens, (ofScanner n v).fault⟩ := by
          simp only [ofScanner, ha.next_eq, hk, if_false]
        refine ⟨t :: seen, u, .cons ha hk hr, ?_⟩
        rcases hcases with ⟨t', v', he, ha', hk'⟩ | ⟨e, he, hf⟩ | ⟨he, hn⟩
        · exact Or.inl ⟨t', v', by rw [hstep, he]; rfl, ha', hk'⟩
        · exact Or.inr (Or.inl ⟨e, by rw [hstep, he], hf⟩)
        · exact Or.inr (Or.inr ⟨by rw [hstep, he], by rw [List.length_cons, hn]⟩)
    · obtain ⟨s', hn⟩ := hf.next_eq
      refine ⟨[], s, .refl, Or.inr (Or.inl ⟨e, ?_, hf⟩)⟩
      simp only [ofScanner, hn]

end Mython
