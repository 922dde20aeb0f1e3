import Mathlib.Logic.Function.Iterate
import Mython.Proofs.Token.Continuation
import Mython.Proofs.Token.Slices

/-! What a scanner owes is paid off by every answer: each byte, each open block and the end of the
last line pay for one. -/

namespace Mython

namespace Scanner

variable {s s' a : Scanner} {bytes run more : List UInt8}

/-- From one scanner to one that has read a run of bytes, no more than there are. -/
structure Takes (s : Scanner) (run : List UInt8) (s' : Scanner) : Prop where
  rest : s.rest = run ++ s'.rest
  pos : s'.pos = s.pos.afterAll run

theorem Takes.trans (h : s.Takes run a) (h' : a.Takes more s') : s.Takes (run ++ more) s' where
  rest := by rw [h.rest, h'.rest, List.append_assoc]
  pos := by rw [h'.pos, h.pos, Position.afterAll_append]

theorem takes_skip (s : Scanner) (n : Nat) : s.Takes (s.rest.take n) (s.skip n) where
  rest := (List.take_append_drop n s.rest).symm
  pos := rfl

theorem takes_past (s : Scanner) (p : UInt8 → Bool) : s.Takes (s.rest.takeWhile p) (s.past p) where
  rest := by rw [rest_past, List.takeWhile_append_dropWhile]
  pos := s.pos_past p

theorem takes_atMargin (s : Scanner) : s.Takes (s.rest.takeWhile Byte.isBlank) s.atMargin :=
  ⟨(s.takes_past Byte.isBlank).rest, (s.takes_past Byte.isBlank).pos⟩

theorem Arrives.takes (h : s.Arrives a) : ∃ run, s.Takes run a := by
  cases h with
  | inline hl => exact ⟨_, s.takes_past Byte.isInlineBlank⟩
  | ended hl hr => exact ⟨_, s.takes_atMargin⟩
  | level hl hr heven heq => exact ⟨_, s.takes_atMargin⟩

theorem Arrives.indent_eq (h : s.Arrives a) : a.indent = s.indent := by
  cases h with
  | inline hl => rfl
  | ended hl hr => rfl
  | level hl hr heven heq => rfl

theorem Arrives.current_eq (h : s.Arrives a) : a.current = s.current := by
  cases h with
  | inline hl => rfl
  | ended hl hr => rfl
  | level hl hr heven heq => rfl

theorem Advances.takes {t : Token} (h : s.Advances t s') : ∃ run, s.Takes run s' := by
  cases h with
  | close hl => exact ⟨[], rfl, rfl⟩
  | dedent hl hr heven hlt => exact ⟨_, s.takes_atMargin.rest, s.takes_atMargin.pos⟩
  | indent hl hr heven heq => exact ⟨_, s.takes_atMargin.rest, s.takes_atMargin.pos⟩
  | @lexeme a first rest kind ha hr hk =>
    obtain ⟨run, hrun⟩ := ha.takes
    have hskip := hrun.trans (a.takes_skip (Lexeme.read first rest).length)
    exact ⟨_, hskip.rest, hskip.pos⟩
  | newline ha hr hc => exact ha.takes.imp fun run hrun => ⟨hrun.rest, hrun.pos⟩
  | unwind ha hr hc hi => exact ha.takes.imp fun run hrun => ⟨hrun.rest, hrun.pos⟩
  | eof ha hr hc hi => exact ha.takes.imp fun run hrun => ⟨hrun.rest, hrun.pos⟩

theorem Advances.current_eq {t : Token} (h : s.Advances t s') : s'.current = t := by
  cases h with
  | close hl => rfl
  | dedent hl hr heven hlt => rfl
  | indent hl hr heven heq => rfl
  | lexeme ha hr hk => rfl
  | newline ha hr hc => rfl
  | unwind ha hr hc hi => rfl
  | eof ha hr hc hi => rfl

/-- A request that fails leaves everything but the place alone, and the line has begun. -/
theorem Stops.kept (h : s.Stops s') :
    s'.indent = s.indent ∧ s'.current = s.current ∧ s'.layout = .inline := by
  cases h with
  | margin hl hr hpos => exact ⟨rfl, rfl, rfl⟩
  | lexeme ha hr =>
    have hlayout := layout_of_arrives ha
    exact ⟨ha.indent_eq, ha.current_eq, hlayout⟩

/-- A request fails in front of a byte, and behind one that it has read. -/
theorem Stops.takes (h : s.Stops s') : ∃ run, run ≠ [] ∧ s.Takes run s' := by
  cases h with
  | margin hl hr hpos =>
    refine ⟨_, ?_, s.takes_atMargin⟩
    have hle := Layout.margin_le_length s
    intro hnil
    rw [hnil, List.length_nil] at hle
    omega
  | @lexeme a first rest ha hr =>
    obtain ⟨run, hrun⟩ := ha.takes
    refine ⟨_, ?_, hrun.trans (a.takes_skip (Lexeme.read first rest).length)⟩
    have hpos := (Lexeme.read_fits first rest).pos
    rw [hr, ← Nat.succ_pred_eq_of_pos hpos, List.take_succ_cons]
    simp

/-- What holds of a scanner at any time: it has read the front of its text and counted the lines and
columns of that, its level is whole, and so is any that blocks have still to be closed down to. -/
structure Safe (bytes : List UInt8) (s : Scanner) : Prop where
  located : ∃ done, Layout.Located bytes done s
  even : s.indent % indentWidth = 0
  closing : ∀ target, s.layout = .closing target →
    target % indentWidth = 0 ∧ target < s.indent

theorem safe_ofBytes (bytes : List UInt8) : Safe bytes (ofBytes bytes) where
  located := ⟨[], rfl, rfl⟩
  even := rfl
  closing target hl := by cases hl

theorem Takes.located (h : s.Takes run s') (hs : ∃ done, Layout.Located bytes done s) :
    ∃ done, Layout.Located bytes done s' := by
  obtain ⟨done, hd⟩ := hs
  refine ⟨done ++ run, ?_, ?_⟩
  · rw [hd.split, h.rest, List.append_assoc]
  · rw [h.pos, hd.pos, Position.afterAll_append]

/-- Closing a block on the way to a shallower whole level keeps levels whole. -/
theorem closed_whole {target : Nat} (heven : s.indent % indentWidth = 0)
    (htarget : target % indentWidth = 0) (hlt : target < s.indent) :
    (s.closed target).indent + indentWidth = s.indent ∧
      (s.closed target).indent % indentWidth = 0 ∧
      ∀ target', (s.closed target).layout = .closing target' →
        target' % indentWidth = 0 ∧ target' < (s.closed target).indent := by
  have hindent : (s.closed target).indent = s.indent - indentWidth := rfl
  rw [hindent]
  refine ⟨by simp only [indentWidth] at *; omega, by simp only [indentWidth] at *; omega, ?_⟩
  intro target' hl
  simp only [closed] at hl
  split at hl
  · cases hl
  · cases hl
    simp only [indentWidth] at *
    exact ⟨htarget, by omega⟩

theorem Safe.advances {t : Token} (h : Safe bytes s) (ha : s.Advances t s') : Safe bytes s' := by
  obtain ⟨run, hrun⟩ := ha.takes
  have hlocated := hrun.located h.located
  cases ha with
  | close hl =>
    obtain ⟨htarget, hlt⟩ := h.closing _ hl
    obtain ⟨-, heven, hclosing⟩ := closed_whole h.even htarget hlt
    exact ⟨hlocated, heven, hclosing⟩
  | dedent hl hr heven hlt =>
    have hmargin : s.atMargin.indent % indentWidth = 0 := h.even
    obtain ⟨-, heven, hclosing⟩ := closed_whole hmargin heven hlt
    exact ⟨hlocated, heven, hclosing⟩
  | indent hl hr heven heq => exact ⟨hlocated, heven, fun target hl => by cases hl⟩
  | lexeme ha hr hk =>
    refine ⟨hlocated, ha.indent_eq ▸ h.even, fun target hl => ?_⟩
    simp only [behind] at hl
    split at hl
    · cases hl
    · cases hl
  | newline ha hr hc =>
    exact ⟨hlocated, ha.indent_eq ▸ h.even, fun target hl => by
      cases (layout_of_arrives ha).symm.trans hl⟩
  | @unwind a ha hr hc hi =>
    have heven : a.indent % indentWidth = 0 := ha.indent_eq ▸ h.even
    refine ⟨hlocated, ?_, fun target hl => by cases (layout_of_arrives ha).symm.trans hl⟩
    simp only [indentWidth] at *
    omega
  | eof ha hr hc hi =>
    exact ⟨hlocated, ha.indent_eq ▸ h.even, fun target hl => by
      cases (layout_of_arrives ha).symm.trans hl⟩

theorem Safe.stops (h : Safe bytes s) (hs : s.Stops s') : Safe bytes s' := by
  obtain ⟨run, -, hrun⟩ := hs.takes
  obtain ⟨hindent, -, hlayout⟩ := hs.kept
  refine ⟨hrun.located h.located, hindent ▸ h.even, fun target hl => ?_⟩
  rw [hlayout] at hl
  cases hl

/-- A request gives a token, or fails where it stops. -/
theorem next_cases (s : Scanner) :
    (∃ t s', s.Advances t s' ∧ s.next = (.ok t, s')) ∨
      ∃ e s', s.Stops s' ∧ s.next = (.error e, s') := by
  rcases s.advances_or_fails with ⟨t, s', ha⟩ | ⟨e, hf⟩
  · exact Or.inl ⟨t, s', ha, ha.next_eq⟩
  · exact Or.inr ⟨e, hf.stops⟩

/-- One request keeps a scanner safe, whether it gives a token or fails. -/
theorem Safe.next (h : Safe bytes s) : Safe bytes s.next.2 := by
  rcases s.next_cases with ⟨t, s', ha, hn⟩ | ⟨e, s', hs, hn⟩
  · rw [hn]
    exact h.advances ha
  · rw [hn]
    exact h.stops hs

/-- The requests that a scanner may still answer by something else than `eof`, at most: one for each
byte, one for each open block, and one for the end of the last line. -/
def owed (s : Scanner) : Nat :=
  s.rest.length + s.indent / indentWidth +
    if s.rest = [] ∧ s.current.kind.closesLine = true then 0 else 1

theorem owed_of_rest (h : s.rest ≠ []) :
    s.owed = s.rest.length + s.indent / indentWidth + 1 := by
  rw [owed, if_neg fun hc => h hc.1]

theorem owed_of_closed (hr : s.rest = []) (hc : s.current.kind.closesLine = true) :
    s.owed = s.indent / indentWidth := by
  rw [owed, if_pos ⟨hr, hc⟩, hr, List.length_nil]
  omega

/-- Behind the text and a complete line only the open blocks are owed. -/
theorem owed_ended (hr : s.rest = []) (indent : Nat) (t : Token)
    (hc : t.kind.closesLine = true) :
    owed { s with indent, current := t } = indent / indentWidth :=
  owed_of_closed hr hc

theorem owed_le (s : Scanner) : s.owed ≤ s.rest.length + s.indent / indentWidth + 1 := by
  unfold owed
  split
  · omega
  · exact Nat.le_refl _

theorem le_owed (s : Scanner) : s.rest.length + s.indent / indentWidth ≤ s.owed :=
  Nat.le_add_right _ _

/-- Reading some bytes on the same level leaves less to be answered. -/
theorem Takes.owed_lt (h : s.Takes run s') (hne : run ≠ []) (hi : s'.indent = s.indent) :
    s'.owed < s.owed := by
  have hlength : s.rest.length = run.length + s'.rest.length := by
    rw [h.rest, List.length_append]
  have hpos : 0 < run.length := List.length_pos_of_ne_nil hne
  have hrest : s.rest ≠ [] := by
    intro hnil
    rw [hnil, List.length_nil] at hlength
    omega
  calc s'.owed ≤ s'.rest.length + s'.indent / indentWidth + 1 := s'.owed_le
    _ < s.rest.length + s.indent / indentWidth + 1 := by rw [hi]; omega
    _ = s.owed := (owed_of_rest hrest).symm

/-- So does closing a block in front of the same bytes. -/
theorem owed_closed_lt {target : Nat} (heven : s.indent % indentWidth = 0)
    (hlt : target < s.indent) : (s.closed target).owed < s.owed := by
  have hlevel : (s.closed target).indent / indentWidth + 1 = s.indent / indentWidth := by
    simp only [closed, indentWidth] at *
    omega
  have hrest : (s.closed target).rest = s.rest := rfl
  by_cases hr : s.rest = []
  · have hle := s.le_owed
    rw [owed_of_closed (hrest.trans hr) rfl]
    omega
  · have hr' : (s.closed target).rest ≠ [] := hrest ▸ hr
    rw [owed_of_rest hr', owed_of_rest hr, hrest]
    omega

theorem owed_atMargin_le (hr : s.atMargin.rest ≠ []) : s.atMargin.owed + s.margin ≤ s.owed := by
  have hmargin := Layout.margin_le_length s
  have hlength := Layout.length_atMargin s
  have hrest : s.rest ≠ [] := by
    intro hnil
    rw [hnil] at hlength
    exact hr (List.length_eq_zero_iff.1 (by simpa using hlength.symm))
  rw [owed_of_rest hr, owed_of_rest hrest, indent_atMargin]
  omega

/-- Every token is paid for, as long as anything is owed. -/
theorem Safe.owed_advances {t : Token} (h : Safe bytes s) (ha : s.Advances t s')
    (ho : s.owed ≠ 0) : s'.owed < s.owed := by
  have heven := h.even
  cases ha with
  | close hl => exact owed_closed_lt heven (h.closing _ hl).2
  | dedent hl hr _ hlt =>
    have hmargin : s.atMargin.indent % indentWidth = 0 := heven
    exact (owed_closed_lt hmargin hlt).trans_le
      ((Nat.le_add_right _ _).trans (owed_atMargin_le hr))
  | indent hl hr _ heq =>
    have hmargin := owed_atMargin_le hr
    rw [owed_of_rest hr, indent_atMargin] at hmargin
    have hle := owed_le { s.atMargin with
      indent := s.margin, current := (⟨.indent, s.atMargin.pos⟩ : Token) }
    simp only [heq, indentWidth] at *
    omega
  | @lexeme a first rest kind ha hr hk =>
    obtain ⟨run, hrun⟩ := ha.takes
    have hskip := hrun.trans (a.takes_skip (Lexeme.read first rest).length)
    have htakes : s.Takes _ (a.behind (Lexeme.read first rest).length kind) :=
      ⟨hskip.rest, hskip.pos⟩
    refine htakes.owed_lt ?_ ha.indent_eq
    have hpos := (Lexeme.read_fits first rest).pos
    rw [hr, ← Nat.succ_pred_eq_of_pos hpos, List.take_succ_cons]
    simp
  | @newline a ha hr hc =>
    have howed : s.owed = s.rest.length + s.indent / indentWidth + 1 := by
      rw [owed, if_neg]
      rw [← ha.current_eq, hc]
      simp
    rw [owed_ended hr a.indent ⟨.newline, a.pos⟩ rfl, howed, ha.indent_eq]
    omega
  | @unwind a ha hr hc hi =>
    have hle := s.le_owed
    have hindent := ha.indent_eq
    rw [owed_ended hr (a.indent - indentWidth) ⟨.dedent, a.pos⟩ rfl]
    simp only [hindent, indentWidth] at *
    omega
  | @eof a ha hr hc hi =>
    rw [owed_ended hr a.indent ⟨.eof, a.pos⟩ rfl, hi, Nat.zero_div]
    exact Nat.pos_of_ne_zero ho

/-- Every answer is paid for, errors included. -/
theorem Safe.owed_next (h : Safe bytes s) (ho : s.owed ≠ 0) : s.next.2.owed < s.owed := by
  rcases s.next_cases with ⟨t, s', ha, hn⟩ | ⟨e, s', hs, hn⟩
  · rw [hn]
    exact h.owed_advances ha ho
  · rw [hn]
    obtain ⟨run, hne, hrun⟩ := hs.takes
    exact hrun.owed_lt hne hs.kept.1

/-- A scanner that owes nothing is behind its text, and answers `eof` without owing more. -/
theorem Safe.next_of_owed (h : Safe bytes s) (ho : s.owed = 0) :
    s.next.1 = .ok ⟨.eof, Position.start.afterAll bytes⟩ ∧ s.next.2.owed = 0 := by
  have hle := s.le_owed
  have heven := h.even
  rw [ho, indentWidth] at hle
  have hrest : s.rest = [] := List.length_eq_zero_iff.1 (by omega)
  have hindent : s.indent = 0 := by
    rw [indentWidth] at heven
    omega
  have hcloses : s.current.kind.closesLine = true := by
    by_contra hc
    rw [owed, if_neg fun hand => hc hand.2] at ho
    exact Nat.succ_ne_zero _ ho
  have harrives : ∃ a, s.Arrives a := by
    cases hl : s.layout with
    | lineStart =>
      have hr : s.atMargin.rest = [] := by rw [rest_atMargin, hrest]; rfl
      exact ⟨_, .ended hl hr⟩
    | closing target =>
      have hlt := (h.closing target hl).2
      omega
    | inline => exact ⟨_, .inline hl⟩
  obtain ⟨a, ha⟩ := harrives
  obtain ⟨run, hrun⟩ := ha.takes
  have hr : a.rest = [] := by
    have hsplit := hrun.rest
    rw [hrest] at hsplit
    exact (List.append_eq_nil_iff.1 hsplit.symm).2
  have hnext := (Advances.eof ha hr (ha.current_eq ▸ hcloses) (ha.indent_eq.trans hindent)).next_eq
  obtain ⟨done, hd⟩ := hrun.located h.located
  rw [hnext]
  refine ⟨?_, ?_⟩
  · rw [(Layout.Located.all hd hr).pos]
  · rw [owed_ended hr a.indent ⟨.eof, a.pos⟩ rfl, ha.indent_eq, hindent, Nat.zero_div]

/-- The scanner after `n` requests, whatever they gave. -/
def after (s : Scanner) (n : Nat) : Scanner := (fun s => s.next.2)^[n] s

/-- The scanner of a text after `n` requests. -/
def asked (source : String) (n : Nat) : Scanner := (Scanner.ofSource source).after n

theorem after_succ (s : Scanner) (n : Nat) : s.after (n + 1) = (s.after n).next.2 :=
  Function.iterate_succ_apply' _ n s

/-- The answers to a number of requests are those of the scanners after each of them. -/
theorem getElem?_pull (s : Scanner) {n m : Nat} (h : n < m) :
    (pull m s)[n]? = some (s.after n).next := by
  induction m generalizing s n with
  | zero => exact absurd h (Nat.not_lt_zero n)
  | succ m ih =>
    cases n with
    | zero => rfl
    | succ n => exact ih s.next.2 (Nat.lt_of_succ_lt_succ h)

theorem Safe.after (h : Safe bytes s) (n : Nat) : Safe bytes (s.after n) := by
  induction n with
  | zero => exact h
  | succ n ih =>
    rw [after_succ]
    exact ih.next

theorem Safe.owed_after (h : Safe bytes s) (n : Nat) : (s.after n).owed ≤ s.owed - n := by
  induction n with
  | zero => exact Nat.le_refl _
  | succ n ih =>
    rw [after_succ]
    by_cases ho : (s.after n).owed = 0
    · rw [((h.after n).next_of_owed ho).2]
      exact Nat.zero_le _
    · have hlt := (h.after n).owed_next ho
      omega

/-- What one request does to a scanner. -/
structure Served (s : Scanner) : Prop where
  /-- It reads the next bytes of the text, as many as there are at most. -/
  takes : ∃ run, s.Takes run s.next.2
  /-- No lexeme reaches behind the text. -/
  within : ∀ a first rest, s.Arrives a → a.rest = first :: rest →
    (Lexeme.read first rest).length ≤ a.rest.length
  /-- Where it closes a block, one is open. -/
  dedent : ∀ t, s.next.1 = .ok t → t.kind = .dedent → s.next.2.indent + indentWidth = s.indent
  /-- A token becomes the current one. -/
  current : ∀ t, s.next.1 = .ok t → s.next.2.current = t
  /-- An error leaves the current token alone. -/
  unchanged : ∀ e, s.next.1 = .error e → s.next.2.current = s.current

/-- No lexeme is the end of a block. -/
theorem read_ne_dedent (first : UInt8) (rest : List UInt8) :
    (Lexeme.read first rest).kind ≠ .ok .dedent := by
  intro hk
  by_cases hf : first = Byte.lineFeed
  · subst hf
    rw [Lexeme.read_lineFeed] at hk
    cases hk
  · have hin := Lexeme.read_inline hf rest
    rw [hk] at hin
    rcases hin with hc | hc
    · cases hc
    · cases hc

theorem Safe.dedent_advances {t : Token} (h : Safe bytes s) (ha : s.Advances t s')
    (hk : t.kind = .dedent) : s'.indent + indentWidth = s.indent := by
  cases ha with
  | close hl =>
    obtain ⟨htarget, hlt⟩ := h.closing _ hl
    exact (closed_whole h.even htarget hlt).1
  | dedent hl hr heven hlt =>
    have hmargin : s.atMargin.indent % indentWidth = 0 := h.even
    exact (closed_whole hmargin heven hlt).1
  | indent => cases hk
  | @lexeme a first rest kind ha hr hkind =>
    obtain rfl : kind = .dedent := hk
    exact absurd hkind (read_ne_dedent first rest)
  | newline => cases hk
  | @unwind a ha hr hc hi =>
    have heven := h.even
    have hindent := ha.indent_eq
    simp only [indentWidth] at *
    omega
  | eof => cases hk

theorem Safe.served (h : Safe bytes s) : Served s := by
  have hwithin : ∀ a first rest, s.Arrives a → a.rest = first :: rest →
      (Lexeme.read first rest).length ≤ a.rest.length := by
    intro a first rest _ hr
    rw [hr, List.length_cons]
    exact (Lexeme.read_fits first rest).le
  rcases s.next_cases with ⟨t, s', ha, hn⟩ | ⟨e, s', hs, hn⟩
  · have hanswer {t' : Token} (ht : s.next.1 = .ok t') : t = t' := by
      rw [hn] at ht
      exact Except.ok.inj ht
    refine ⟨hn ▸ ha.takes, hwithin, ?_, ?_, ?_⟩
    · intro t' ht hk
      rw [hn]
      exact h.dedent_advances ha (hanswer ht ▸ hk)
    · intro t' ht
      rw [hn]
      exact ha.current_eq.trans (hanswer ht)
    · intro e he
      rw [hn] at he
      cases he
  · have hanswer (t : Token) : s.next.1 ≠ .ok t := by
      rw [hn]
      exact nofun
    refine ⟨?_, hwithin, fun t ht => absurd ht (hanswer t), fun t ht => absurd ht (hanswer t), ?_⟩
    · obtain ⟨run, -, hrun⟩ := hs.takes
      rw [hn]
      exact ⟨run, hrun⟩
    · intro e' _
      rw [hn]
      exact hs.kept.2.1

end Scanner

namespace TokenStream

/-- How many requests the tokens of a stream take: one for each of them, and one for the error that
follows if they do not end. -/
def requests (s : TokenStream) : Nat := s.tokens.length + if s.fault.isSome then 1 else 0

theorem length_le_requests (s : TokenStream) : s.tokens.length ≤ s.requests := Nat.le_add_right _ _

/-- Two requests more than there are bytes are enough for the tokens of a text. -/
theorem requests_ofSource_le (source : String) :
    (ofSource source).requests ≤ (utf8 source).length + 2 := by
  obtain ⟨seen, u, hr, hcases⟩ := ofSource_reads source
  have hle := Layout.length_le_of_reads hr
  rcases hcases with ⟨t, v, he, -⟩ | ⟨e, he, -⟩
  · rw [he, requests, List.length_append, List.length_singleton]
    exact Nat.succ_le_succ hle
  · rw [he, requests]
    exact Nat.succ_le_succ hle

/-- A stream that was not cut short has taken no more requests than there were. -/
theorem requests_ofScanner (n : Nat) (s : Scanner) :
    (ofScanner n s).requests ≤ n ∨ ∃ pos, (ofScanner n s).fault = some ⟨.unfinished, pos⟩ := by
  induction n generalizing s with
  | zero => exact Or.inr ⟨s.pos, rfl⟩
  | succ n ih =>
    rw [ofScanner]
    rcases s.next with ⟨e | t, u⟩
    · exact Or.inl (Nat.le_add_left 1 n)
    · by_cases hk : t.kind = .eof
      · simp only [if_pos hk]
        exact Or.inl (Nat.le_add_left 1 n)
      · simp only [if_neg hk]
        refine (ih u).imp (fun hle => ?_) id
        rw [requests, List.length_cons, Nat.add_right_comm]
        exact Nat.succ_le_succ hle

/-- However many requests are made, if they are enough, the stream is that of the text. -/
theorem ofScanner_of_requests_le (source : String) {n : Nat} (hn : (ofSource source).requests ≤ n) :
    ofScanner n (.ofSource source) = ofSource source := by
  obtain ⟨seen, u, hr, hcases⟩ := ofSource_reads source
  have hle : seen.length + 1 ≤ n := by
    rcases hcases with ⟨t, v, he, -⟩ | ⟨e, he, -⟩
    · rwa [he, requests, List.length_append] at hn
    · rwa [he, requests] at hn
  have hsplit : n = seen.length + ((n - seen.length - 1) + 1) := by omega
  show ofScanner n (Scanner.ofBytes (utf8 source)) = _
  rw [hsplit, ofScanner_of_reads hr]
  rcases hcases with ⟨t, v, he, ha, hk⟩ | ⟨e, he, hf⟩
  · rw [he]
    simp only [ofScanner, ha.next_eq, hk, if_true]
  · obtain ⟨v, hnext⟩ := hf.next_eq
    rw [he]
    simp only [ofScanner, hnext, List.append_nil]

/-- Two requests more than there are bytes are enough. -/
theorem ofScanner_of_le (source : String) {n : Nat} (hn : (utf8 source).length + 2 ≤ n) :
    ofScanner n (.ofSource source) = ofSource source :=
  ofScanner_of_requests_le source ((requests_ofSource_le source).trans hn)

/-- The tokens of a text are at most two more than its bytes. -/
theorem length_ofSource_le (source : String) :
    (ofSource source).tokens.length ≤ (utf8 source).length + 2 :=
  (length_le_requests _).trans (requests_ofSource_le source)

end TokenStream

/-- The scanner after any number of requests, going on after errors and after the end. It has read a
front of the text, whose line breaks and last bytes are its line and column; its level and the one
down to which it has to close blocks are whole, and the latter is the lower one; the request made
next reads within the text, closes a block only where one is open, and changes the current token
only if it gives one. Counted from one, the answer whose number is two more than there are bytes is
`eof`, and so is every later one; hence no more requests are needed for the tokens of the text, and
there are no more of these. -/
theorem Scanner.requests_safe (source : String) (n : Nat) :
    (∀ m, n < m → (pull m (.ofSource source))[n]? = some (asked source n).next) ∧
      (∃ done, utf8 source = done ++ (asked source n).rest ∧
        (asked source n).pos.line = 1 + done.count Byte.lineFeed ∧
        (asked source n).pos.column = 1 + (Slices.sinceBreak done).length) ∧
      (asked source n).indent % indentWidth = 0 ∧
      (∀ target, (asked source n).layout = .closing target →
        target % indentWidth = 0 ∧ target < (asked source n).indent) ∧
      (asked source n).Served ∧
      ((utf8 source).length + 2 ≤ n + 1 →
        (asked source n).next.1 = .ok ⟨.eof, Position.start.afterAll (utf8 source)⟩) ∧
      (∀ m, (utf8 source).length + 2 ≤ m →
        TokenStream.ofScanner m (.ofSource source) = .ofSource source) ∧
      ∀ ts, tokenize source = .ok ts → ts.length ≤ (utf8 source).length + 2 := by
  have hstart : Safe (utf8 source) (Scanner.ofSource source) := safe_ofBytes (utf8 source)
  have hsafe : Safe (utf8 source) (asked source n) := hstart.after n
  refine ⟨fun m hm => getElem?_pull _ hm, ?_, hsafe.even, hsafe.closing, hsafe.served, ?_, ?_, ?_⟩
  · obtain ⟨done, hd⟩ := hsafe.located
    refine ⟨done, hd.split, ?_, ?_⟩
    · rw [hd.pos, Slices.line_afterAll_start]
    · rw [hd.pos, Slices.column_afterAll]
  · intro hn
    have howed : (Scanner.ofSource source).owed ≤ (utf8 source).length + 0 / indentWidth + 1 :=
      owed_le (Scanner.ofSource source)
    have hafter : (asked source n).owed ≤ (Scanner.ofSource source).owed - n :=
      hstart.owed_after n
    rw [Nat.zero_div] at howed
    exact (hsafe.next_of_owed (by omega)).1
  · intro m hm
    exact TokenStream.ofScanner_of_le source hm
  · intro ts hts
    have hle := TokenStream.length_ofSource_le source
    simp only [tokenize] at hts
    split at hts
    · cases hts
    · rwa [Except.ok.inj hts] at hle

end Mython
