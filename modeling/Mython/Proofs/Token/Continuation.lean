import Mython.Proofs.Token.LayoutFault
import Mython.Proofs.Token.Spelling

namespace Mython

namespace Lexeme

/-- A run that ends inside the first part of a text does not depend on the second. -/
theorem takeWhile_exchange {p : UInt8 → Bool} {run tail : List UInt8} (tail' : List UInt8)
    (h : ((run ++ tail).takeWhile p).length < run.length) :
    (run ++ tail').takeWhile p = (run ++ tail).takeWhile p := by
  rw [List.takeWhile_append] at h
  have hne : (run.takeWhile p).length ≠ run.length := by
    intro heq
    rw [if_pos heq, List.length_append] at h
    omega
  rw [List.takeWhile_append, List.takeWhile_append, if_neg hne, if_neg hne]

/-- A lexeme in front of the last byte of a part is decided by that part. -/
theorem read_exchange {first : UInt8} {run tail : List UInt8} (tail' : List UInt8)
    (h : (read first (run ++ tail)).length ≤ run.length) :
    read first (run ++ tail') = read first (run ++ tail) := by
  unfold read at h ⊢
  split
  · rfl
  · next hline =>
    rw [if_neg hline] at h
    split
    · next hquote =>
      rw [if_pos hquote] at h
      simp only [ofQuote] at h ⊢
      have hlt : ((run ++ tail).takeWhile (· != first)).length < run.length := by
        split at h <;> simp only at h <;> omega
      have hne : ∀ more : List UInt8,
          ((run ++ tail).takeWhile (· != first)).length ≠ (run ++ more).length := by
        intro more
        rw [List.length_append]
        omega
      rw [takeWhile_exchange tail' hlt, if_neg (hne tail'), if_neg (hne tail)]
    · next hquote =>
      rw [if_neg hquote] at h
      split
      · next hdigit =>
        rw [if_pos hdigit] at h
        simp only [ofDigit] at h ⊢
        have hlt : ((run ++ tail).takeWhile Byte.isDigit).length < run.length := by
          split at h <;> simp only [List.length_cons] at h <;> omega
        rw [takeWhile_exchange tail' hlt]
      · next hdigit =>
        rw [if_neg hdigit] at h
        split
        · next hword =>
          rw [if_pos hword] at h
          simp only [ofLetter, List.length_cons] at h ⊢
          rw [takeWhile_exchange tail' h]
        · next hword =>
          rw [if_neg hword] at h
          split
          · next hgraphic =>
            rw [if_pos hgraphic] at h
            have hrun : run ≠ [] := by
              rintro rfl
              have hpos := (ofMark_fits first ([] ++ tail)).pos
              rw [List.length_nil] at h
              omega
            obtain ⟨b, more, rfl⟩ := List.exists_cons_of_ne_nil hrun
            rfl
          · rfl

end Lexeme

namespace Scanner

/-- A scanner whose text goes on in another way behind some bytes. -/
def Exchanged (tail tail' : List UInt8) (s s' : Scanner) : Prop :=
  ∃ run, s.rest = run ++ tail ∧ s' = { s with rest := run ++ tail' }

variable {tail tail' : List UInt8} {s s' a v : Scanner} {t : Token}

theorem length_past_le (s : Scanner) (p : UInt8 → Bool) :
    (s.past p).rest.length ≤ s.rest.length := by
  rw [rest_past]
  exact (List.dropWhile_sublist p).length_le

theorem Arrives.length_le (h : s.Arrives a) : a.rest.length ≤ s.rest.length := by
  cases h with
  | inline hl => exact s.length_past_le _
  | ended hl hr => exact s.length_past_le _
  | level hl hr heven heq => exact s.length_past_le _

/-- Reading on never gives bytes back. -/
theorem Advances.length_le (h : s.Advances t v) : v.rest.length ≤ s.rest.length := by
  cases h with
  | close hl => exact Nat.le_refl _
  | dedent hl hr heven hlt => exact s.length_past_le _
  | indent hl hr heven heq => exact s.length_past_le _
  | lexeme ha hr hk => exact (List.length_drop ▸ Nat.sub_le ..).trans ha.length_le
  | newline ha hr hc => exact ha.length_le
  | unwind ha hr hc hi => exact ha.length_le
  | eof ha hr hc hi => exact ha.length_le

namespace Exchanged

theorem skip (h : Exchanged tail tail' s s') {n : Nat} (hn : n + tail.length ≤ s.rest.length) :
    Exchanged tail tail' (s.skip n) (s'.skip n) := by
  obtain ⟨run, hrest, rfl⟩ := h
  have hle : n ≤ run.length := by
    rw [hrest, List.length_append] at hn
    omega
  refine ⟨run.drop n, ?_, ?_⟩
  · rw [Scanner.skip, hrest, List.drop_append_of_le_length hle]
  · simp only [Scanner.skip, hrest, List.drop_append_of_le_length hle,
      List.take_append_of_le_length hle]

/-- What is skipped in the common part is skipped alike. -/
theorem past (h : Exchanged tail tail' s s') {p : UInt8 → Bool}
    (hin : tail.length < (s.past p).rest.length) :
    Exchanged tail tail' (s.past p) (s'.past p) ∧
      s'.rest.takeWhile p = s.rest.takeWhile p := by
  have hlength : (s.rest.takeWhile p).length + (s.past p).rest.length = s.rest.length := by
    rw [rest_past, ← List.length_append, List.takeWhile_append_dropWhile]
  have hsame : s'.rest.takeWhile p = s.rest.takeWhile p := by
    obtain ⟨run, hrest, rfl⟩ := h
    rw [hrest, List.length_append] at hlength
    rw [hrest]
    exact Lexeme.takeWhile_exchange tail' (by omega)
  refine ⟨?_, hsame⟩
  rw [Scanner.past, Scanner.past, hsame]
  exact h.skip (by omega)

theorem atMargin (h : Exchanged tail tail' s s') (hin : tail.length < s.atMargin.rest.length) :
    Exchanged tail tail' s.atMargin s'.atMargin ∧ s'.margin = s.margin := by
  obtain ⟨⟨run, hrest, hs'⟩, hblanks⟩ := h.past hin
  refine ⟨⟨run, hrest, ?_⟩, ?_⟩
  · rw [Scanner.atMargin, hs', Scanner.atMargin]
  · rw [margin, margin, hblanks]

/-- The other text goes on as well, if the first one does inside the common part. -/
theorem ne_nil (h : Exchanged tail tail' s s') (hin : tail.length < s.rest.length) :
    s'.rest ≠ [] := by
  obtain ⟨run, hrest, rfl⟩ := h
  rintro hnil
  obtain ⟨rfl, -⟩ := List.append_eq_nil_iff.1 hnil
  rw [hrest, List.nil_append] at hin
  exact Nat.lt_irrefl _ hin

theorem layout_eq (h : Exchanged tail tail' s s') : s'.layout = s.layout := by
  obtain ⟨run, -, rfl⟩ := h
  rfl

theorem pos_eq (h : Exchanged tail tail' s s') : s'.pos = s.pos := by
  obtain ⟨run, -, rfl⟩ := h
  rfl

theorem indent_eq (h : Exchanged tail tail' s s') : s'.indent = s.indent := by
  obtain ⟨run, -, rfl⟩ := h
  rfl

theorem arrives (h : Exchanged tail tail' s s') (ha : s.Arrives a)
    (hin : tail.length < a.rest.length) : ∃ a', s'.Arrives a' ∧ Exchanged tail tail' a a' := by
  cases ha with
  | inline hl => exact ⟨_, .inline (h.layout_eq.trans hl), (h.past hin).1⟩
  | ended hl hr =>
    rw [hr] at hin
    exact absurd hin (Nat.not_lt_zero _)
  | level hl hr heven heq =>
    obtain ⟨hexchanged, hmargin⟩ := h.atMargin hin
    refine ⟨s'.atMargin, .level (h.layout_eq.trans hl) (hexchanged.ne_nil hin) ?_ ?_, hexchanged⟩
    · rw [hmargin, heven]
    · rw [hmargin, heq, h.indent_eq]

/-- A token that leaves a byte of the common part is read from the other text as well. -/
theorem advances (h : Exchanged tail tail' s s') (ha : s.Advances t v)
    (hin : tail.length < v.rest.length) :
    ∃ v', s'.Advances t v' ∧ Exchanged tail tail' v v' := by
  cases ha with
  | @close target hl =>
    have ha' := Advances.close (h.layout_eq.trans hl)
    rw [h.pos_eq] at ha'
    refine ⟨_, ha', ?_⟩
    obtain ⟨run, hrest, rfl⟩ := h
    exact ⟨run, hrest, rfl⟩
  | dedent hl hr heven hlt =>
    obtain ⟨hexchanged, hmargin⟩ := h.atMargin hin
    have ha' := Advances.dedent (h.layout_eq.trans hl) (hexchanged.ne_nil hin)
      (by rw [hmargin, heven]) (by rw [hmargin, h.indent_eq]; exact hlt)
    rw [hexchanged.pos_eq, hmargin] at ha'
    refine ⟨_, ha', ?_⟩
    obtain ⟨run, hrest, hs'⟩ := hexchanged
    rw [hs']
    exact ⟨run, hrest, rfl⟩
  | indent hl hr heven heq =>
    obtain ⟨hexchanged, hmargin⟩ := h.atMargin hin
    have ha' := Advances.indent (h.layout_eq.trans hl) (hexchanged.ne_nil hin)
      (by rw [hmargin, heven]) (by rw [hmargin, h.indent_eq]; exact heq)
    rw [hexchanged.pos_eq, hmargin] at ha'
    refine ⟨_, ha', ?_⟩
    obtain ⟨run, hrest, hs'⟩ := hexchanged
    rw [hs']
    exact ⟨run, hrest, rfl⟩
  | @lexeme a first rest kind ha hr hk =>
    have hbehind : (a.behind (Lexeme.read first rest).length kind).rest.length =
        a.rest.length - (Lexeme.read first rest).length := List.length_drop
    rw [hbehind] at hin
    obtain ⟨a', ha', run, hrest, rfl⟩ := h.arrives ha (by omega)
    cases run with
    | nil =>
      rw [hrest, List.nil_append] at hin
      omega
    | cons b run =>
      obtain ⟨rfl, rfl⟩ : first = b ∧ rest = run ++ tail := List.cons.inj (hr.symm.trans hrest)
      have hle : (Lexeme.read first (run ++ tail)).length ≤ run.length := by
        rw [hr, List.length_cons, List.length_append] at hin
        omega
      have hread := Lexeme.read_exchange tail' hle
      have hcons : (first :: run ++ tail') = first :: (run ++ tail') := rfl
      have hnext := Advances.lexeme ha' hcons (by rw [hread]; exact hk)
      have hwithin : (Lexeme.read first (run ++ tail)).length ≤ (first :: run).length :=
        hle.trans (Nat.le_succ _)
      refine ⟨_, hnext, (first :: run).drop (Lexeme.read first (run ++ tail)).length, ?_, ?_⟩
      · rw [behind, hrest, List.drop_append_of_le_length hwithin]
      · simp only [behind, hread, hrest, List.drop_append_of_le_length hwithin,
          List.take_append_of_le_length hwithin]
  | newline ha hr hc =>
    rw [hr] at hin
    exact absurd hin (Nat.not_lt_zero _)
  | unwind ha hr hc hi =>
    rw [hr] at hin
    exact absurd hin (Nat.not_lt_zero _)
  | eof ha hr hc hi =>
    rw [hr] at hin
    exact absurd hin (Nat.not_lt_zero _)

/-- A run of requests that leaves a byte of the common part gives the same in the other text. -/
theorem reads (h : Exchanged tail tail' s s') {seen : List Token} (hr : s.Reads seen v)
    (hin : tail.length < v.rest.length) : ∃ v', s'.Reads seen v' ∧ Exchanged tail tail' v v' := by
  induction hr with
  | refl => exact ⟨s', .refl, h⟩
  | snoc _ ha hk ih =>
    obtain ⟨u', hr', hu⟩ := ih (hin.trans_le ha.length_le)
    obtain ⟨v', ha', hv⟩ := hu.advances ha hin
    exact ⟨v', .snoc hr' ha' hk, hv⟩

end Exchanged

end Scanner

namespace TokenStream

/-- The tokens of a text, with the request that ends them: one for the end or one that fails. -/
theorem ofSource_reads (source : String) :
    ∃ seen u, (Scanner.ofBytes (utf8 source)).Reads seen u ∧
      ((∃ t v, ofSource source = ⟨seen ++ [t], none⟩ ∧ u.Advances t v ∧ t.kind = .eof) ∨
        ∃ e, ofSource source = ⟨seen, some e⟩ ∧ u.Fails e) := by
  obtain ⟨seen, u, hr, hcases⟩ :=
    ofScanner_cases ((utf8 source).length + 2) (Scanner.ofBytes (utf8 source))
  refine ⟨seen, u, hr, ?_⟩
  rcases hcases with h | h | ⟨-, hlength⟩
  · exact Or.inl h
  · exact Or.inr h
  · have hle := Layout.length_le_of_reads hr
    omega

/-- Requests up to the end of a text give its stream. -/
theorem ofSource_of_reads {source : String} {seen : List Token} {u v : Scanner} {t : Token}
    (hr : (Scanner.ofBytes (utf8 source)).Reads seen u) (ha : u.Advances t v)
    (hk : t.kind = .eof) : ofSource source = ⟨seen ++ [t], none⟩ := by
  have hle := Layout.length_le_of_reads hr
  have hsplit : (utf8 source).length + 2 =
      seen.length + (((utf8 source).length + 1 - seen.length) + 1) := by omega
  show ofScanner ((utf8 source).length + 2) (Scanner.ofBytes (utf8 source)) = _
  rw [hsplit, ofScanner_of_reads hr]
  simp only [ofScanner, ha.next_eq, hk, if_true]

end TokenStream

namespace Scanner

/-- A scanner in front of the word `eof`, which no other byte makes longer. -/
theorem advances_eof {s a : Scanner} {rest : List UInt8} (ha : s.Arrives a)
    (hr : a.rest = utf8 "eof" ++ rest) (hstop : ∀ b ∈ rest.head?, Byte.isWord b = false) :
    ∃ v, s.Advances ⟨.eof, a.pos⟩ v := by
  have hspells : Byte.SpellsWord (utf8 "eof") := by decide
  obtain ⟨first, more, hmore, -, hread⟩ := Lexeme.heads_word hspells hstop
  have hkind : (Lexeme.read first more).kind = .ok .eof := by
    rw [hread]
    rfl
  exact ⟨_, .lexeme ha (hr.trans hmore) hkind⟩

end Scanner

/-- What stands behind the word `eof` is no part of the program: with any other text behind the word
the tokens are the same. -/
theorem TokenStream.ofSource_behind_eof {source : String} {seen : List Token} {t : Token}
    (h : ofSource source = ⟨seen ++ [t], none⟩)
    (ht : t.pos ≠ Position.start.afterAll (utf8 source)) :
    ∃ front back, source = front ++ "eof" ++ back ∧ t.pos = Position.start.afterAll (utf8 front) ∧
      (∀ b ∈ (utf8 back).head?, Byte.isWord b = false) ∧
      ∀ other, (∀ b ∈ (utf8 other).head?, Byte.isWord b = false) →
        ofSource (front ++ "eof" ++ other) = ofSource source := by
  obtain ⟨seen', u, hr, ⟨t', v, he, ha, hk⟩ | ⟨e, he, -⟩⟩ := ofSource_reads source
  · have hsplit := congrArg tokens (he.symm.trans h)
    obtain ⟨rfl, htokens⟩ := List.append_inj' hsplit rfl
    obtain rfl := List.singleton_inj.1 htokens
    have hlaid := Layout.laid_of_reads hr
    cases ha with
    | @lexeme a first rest kind harr hrest hkind =>
      obtain rfl : kind = .eof := hk
      obtain ⟨done, hlocated⟩ := (hlaid.atLexeme harr (by simp [hrest])).located
      have hbytes : utf8 source = done ++ first :: rest := hrest ▸ hlocated.split
      obtain ⟨hspelled, hstop⟩ := Lexeme.read_reads hbytes _ hkind
      generalize (Lexeme.read first rest).length = length at hspelled hstop
      have hword : first :: rest = utf8 "eof" ++ (first :: rest).drop length := by
        rw [← hspelled, List.take_append_drop]
      generalize (first :: rest).drop length = tail at hstop hword
      have hletters : utf8 "eof" = [0x65, 0x6f, 0x66] := by decide
      rw [hword, hletters] at hbytes
      obtain ⟨front, -, rfl, -⟩ := Utf8.cut (by decide) hbytes
      have hlast : utf8 source = (utf8 front ++ [0x65, 0x6f]) ++ 0x66 :: tail := by
        rw [hbytes]
        simp
      obtain ⟨-, back, -, rfl⟩ := Utf8.cut (by decide) hlast
      have hsource : source = front ++ "eof" ++ back := by
        apply Utf8.utf8_injective
        rw [Utf8.utf8_append, Utf8.utf8_append, hbytes, hletters]
        simp
      refine ⟨front, back, hsource, hlocated.pos, hstop, ?_⟩
      intro other hother
      have hexchanged : Scanner.Exchanged (utf8 back) (utf8 other) (.ofBytes (utf8 source))
          (.ofBytes (utf8 (front ++ "eof" ++ other))) := by
        refine ⟨utf8 (front ++ "eof"), ?_, ?_⟩
        · rw [hsource, Utf8.utf8_append (front ++ "eof")]
          rfl
        · rw [Utf8.utf8_append (front ++ "eof")]
          rfl
      have hrest' : a.rest = utf8 "eof" ++ utf8 back := hrest.trans hword
      have hlonger : (utf8 back).length < a.rest.length := by
        rw [hrest', hletters, List.length_append]
        exact Nat.lt_add_of_pos_left (by decide)
      obtain ⟨u', hr', hu⟩ := hexchanged.reads hr (hlonger.trans_le harr.length_le)
      obtain ⟨a', harr', run, hrun, rfl⟩ := hu.arrives harr hlonger
      obtain rfl : utf8 "eof" = run := List.append_cancel_right (hrest'.symm.trans hrun)
      obtain ⟨v', hnext⟩ := Scanner.advances_eof harr' rfl hother
      rw [ofSource_of_reads hr' hnext rfl, he]
    | eof harr hrest hclosed hindent => exact absurd (hlaid.atEnd harr hrest).located.pos ht
    | close => cases hk
    | dedent => cases hk
    | indent => cases hk
    | newline => cases hk
    | unwind => cases hk
  · rw [he] at h
    cases congrArg fault h

end Mython
