import Mython.Proofs.Program.StatementComplete
import Mython.Proofs.Program.StatementSound
import Mython.Proofs.Token.Layout

namespace Mython

open Token (Kind)
open Parse Cursor

theorem Scanner.Reads.ne_eof {s u : Scanner} {seen : List Token} (h : s.Reads seen u) :
    ∀ t ∈ seen, t.kind ≠ .eof := by
  induction h with
  | refl => simp
  | snoc _ _ hk ih =>
    intro t ht
    rcases List.mem_append.1 ht with ht | ht
    · exact ih t ht
    · rw [List.mem_singleton.1 ht]
      exact hk

/-- The tokens of a text end with the only `eof` among them, or an error follows. -/
theorem TokenStream.ofSource_cases (source : String) :
    ∃ seen, (∀ t ∈ seen, t.kind ≠ .eof) ∧
      ((∃ t, ofSource source = ⟨seen ++ [t], none⟩ ∧ t.kind = .eof) ∨
        ∃ e, ofSource source = ⟨seen, some e⟩) := by
  obtain ⟨seen, u, hr, hcases⟩ :=
    ofScanner_cases ((utf8 source).length + 2) (Scanner.ofBytes (utf8 source))
  refine ⟨seen, hr.ne_eof, ?_⟩
  rcases hcases with ⟨t, v, he, -, hk⟩ | ⟨e, he, -⟩ | ⟨he, -⟩
  · exact Or.inl ⟨t, he, hk⟩
  · exact Or.inr ⟨e, he⟩
  · exact Or.inr ⟨_, he⟩

theorem Layout.Fits.precedes {bytes : List UInt8} {before : List Token} {t : Token}
    (h : Layout.Fits bytes before t) : (Layout.lastKind before).Precedes t.kind :=
  ⟨h.newline, fun hk => (h.dedent hk).1⟩

theorem Cursor.ofSource_tidy {source : String} {c : Cursor}
    (h : Cursor.ofStream (TokenStream.ofSource source) = .ok c) :
    c.Tidy ∧ c.kinds = (TokenStream.ofSource source).tokens.map (·.kind) ∧
      c.fault = (TokenStream.ofSource source).fault ∧ c.known = [] ∧
      c.lookahead.kind ≠ .newline := by
  have hfits := Layout.ofSource_fits source
  obtain ⟨seen, -, hcases⟩ := TokenStream.ofSource_cases source
  generalize TokenStream.ofSource source = stream at h hfits hcases
  obtain ⟨tokens, fault⟩ := stream
  cases tokens with
  | nil => cases fault <;> cases h
  | cons t ts =>
    cases h
    refine ⟨⟨?_, ?_⟩, rfl, rfl, rfl, ?_⟩
    · rintro rfl
      rcases hcases with ⟨last, he, hk⟩ | ⟨e, he⟩
      · have htokens : t :: ts = seen ++ [last] := congrArg TokenStream.tokens he
        show ((t :: ts).map (·.kind)).getLast? = some .eof
        rw [htokens]
        simp [hk]
      · cases he
    · show ((t :: ts).map (·.kind)).IsChain Kind.Precedes
      rw [List.isChain_map]
      refine List.isChain_iff_forall_rel_of_append_cons_cons.2 ?_
      intro a b before after htokens
      have hprec := (hfits (before ++ [a]) b after (by simp [htokens])).precedes
      rwa [Layout.lastKind_snoc] at hprec
    · intro hk
      simpa [Layout.lastKind, Kind.isContent] using (hfits [] t ts rfl).newline hk

/-- A parse is a run over the statements from the head of the stream. -/
theorem parse_eq_ok {source : String} {program : Program} :
    parse source = .ok program ↔
      ∃ c c', Cursor.ofStream (TokenStream.ofSource source) = .ok c ∧
        statements ((TokenStream.ofSource source).tokens.length + 2)
          ((TokenStream.ofSource source).tokens.length + 2) c = .ok (program.body, c') := by
  generalize hbound : (TokenStream.ofSource source).tokens.length + 2 = bound
  have hparse : parse source = (Cursor.ofStream (TokenStream.ofSource source) >>= fun c =>
      (statements bound bound c).map fun r => ⟨r.1⟩) := by
    rw [parse, TokenStream.parse, hbound]
    congr
    funext c
    show Prod.fst <$> (statements bound bound c >>= fun r => .ok ((⟨r.1⟩ : Program), r.2)) = _
    cases statements bound bound c <;> rfl
  rw [hparse]
  cases Cursor.ofStream (TokenStream.ofSource source) with
  | error e => simp [bind, Except.bind]
  | ok c =>
    obtain ⟨body⟩ := program
    cases hrun : statements bound bound c <;>
      simp [bind, Except.bind, Except.map, hrun, Prod.ext_iff]

namespace Grammar

theorem takeWhile_kinds {seen : List Token} {t : Token} (hseen : ∀ u ∈ seen, u.kind ≠ .eof)
    (ht : t.kind = .eof) :
    (((seen ++ [t]).map (·.kind)).takeWhile fun k => k ≠ .eof) = seen.map (·.kind) := by
  rw [List.map_append, List.takeWhile_append_of_pos]
  · simp [ht]
  · intro k hk
    obtain ⟨u, hu, rfl⟩ := List.mem_map.1 hk
    simpa using hseen u hu

theorem eq_of_append_eof {ts us rest : List Kind} (h : ts ++ .eof :: rest = us ++ [.eof])
    (hus : .eof ∉ us) : ts = us := by
  rcases List.append_eq_append_iff.1 h with ⟨as, rfl, has⟩ | ⟨bs, rfl, hbs⟩
  · cases as with
    | nil => simp
    | cons a as =>
      obtain ⟨rfl, -⟩ := List.cons.inj has
      simp at hus
  · cases bs with
    | nil => simp
    | cons b bs => simp at hbs

/-- A text that is parsed has its tokens up to the end, and they derive the program. -/
theorem derives_of_parse {source : String} {program : Program}
    (h : parse source = .ok program) :
    ∃ ts, tokenize source = .ok ts ∧
      Derives ((ts.map (·.kind)).takeWhile fun k => k ≠ .eof) (Stmt.plainAll program.body) := by
  obtain ⟨c, c', hc, hrun⟩ := parse_eq_ok.1 h
  obtain ⟨htidy, hkinds, -, hknown, hfirst⟩ := Cursor.ofSource_tidy hc
  obtain ⟨heof, ts, hpass, hforms⟩ := statements_sound _ htidy hfirst hrun
  rw [hknown] at hforms
  have hsplit : (TokenStream.ofSource source).tokens.map (·.kind) =
      ts ++ .eof :: c'.ahead.map (·.kind) := by
    rw [← hkinds, hpass.kinds, Cursor.kinds, heof]
  obtain ⟨seen, hseen, ⟨t, hstream, ht⟩ | ⟨e, hstream⟩⟩ := TokenStream.ofSource_cases source
  · refine ⟨seen ++ [t], by rw [tokenize, hstream], c'.known, ?_⟩
    rw [takeWhile_kinds hseen ht]
    have hts : ts = seen.map (·.kind) := by
      rw [hstream, List.map_append, List.map_singleton, ht] at hsplit
      refine eq_of_append_eof hsplit.symm fun hmem => ?_
      obtain ⟨u, hu, hk⟩ := List.mem_map.1 hmem
      exact hseen u hu hk
    rwa [← hts]
  · have hmem : Kind.eof ∈ seen.map (·.kind) := by
      rw [hstream] at hsplit
      rw [hsplit]
      simp
    obtain ⟨u, hu, hk⟩ := List.mem_map.1 hmem
    exact absurd hk (hseen u hu)

/-- A text is accepted exactly if it has tokens and those in front of the end derive a program; it
is parsed into that program, apart from places and with classes by name. -/
theorem parse_iff_derives (source : String) (ss : List PlainStmt) :
    (∃ program, parse source = .ok program ∧ Stmt.plainAll program.body = ss) ↔
      ∃ ts, tokenize source = .ok ts ∧
        Derives ((ts.map (·.kind)).takeWhile fun k => k ≠ .eof) ss := by
  constructor
  · rintro ⟨program, hparse, rfl⟩
    exact derives_of_parse hparse
  · rintro ⟨ts, htokens, known, hforms⟩
    obtain ⟨seen, hseen, ⟨t, hstream, ht⟩ | ⟨e, hstream⟩⟩ := TokenStream.ofSource_cases source
    · rw [tokenize, hstream] at htokens
      cases htokens
      rw [takeWhile_kinds hseen ht] at hforms
      obtain ⟨c, hc⟩ : ∃ c, Cursor.ofStream (TokenStream.ofSource source) = .ok c := by
        rw [hstream]
        cases seen <;> exact ⟨_, rfl⟩
      obtain ⟨-, hkinds, -, hknown, -⟩ := Cursor.ofSource_tidy hc
      have hkinds' : c.kinds = seen.map (·.kind) ++ [.eof] := by
        rw [hkinds, hstream, List.map_append, List.map_singleton, ht]
      have hlength : (seen.map (·.kind)).length < (seen ++ [t]).length + 2 := by
        simp only [List.length_map, List.length_append]
        omega
      obtain ⟨body, c', hbody, hrun⟩ := hforms.program _ hkinds' hknown hlength hlength
      exact ⟨⟨body⟩, parse_eq_ok.2 ⟨c, c', hc, by rw [hstream]; exact hrun⟩, hbody⟩
    · rw [tokenize, hstream] at htokens
      cases htokens

end Grammar

end Mython
