import Mython.Proofs.Program.Pulling
import Mython.Proofs.Program.Seam
import Mython.Proofs.Run.Truncation
import Mython.Proofs.Session.Boundary
import Mython.Proofs.Token.Joined

namespace Mython

open Token (Kind)
open Run

mutual

/-- The names of the classes that a statement defines, in the order in which they are completed. -/
def PlainStmt.defines : PlainStmt → List String
  | .ifThen _ body => PlainStmt.definesAll body
  | .ifElse _ body other => PlainStmt.definesAll body ++ PlainStmt.definesAll other
  | .define name _ methods => PlainMethod.definesAll methods ++ [name]
  | .assign .. | .assignField .. | .print _ | .ret _ | .eval _ => []

/-- The names of the classes that statements define. -/
def PlainStmt.definesAll : List PlainStmt → List String
  | [] => []
  | s :: ss => s.defines ++ PlainStmt.definesAll ss

/-- The names of the classes that the bodies of methods define. -/
def PlainMethod.definesAll : List PlainMethod → List String
  | [] => []
  | ⟨_, _, body⟩ :: ms => PlainStmt.definesAll body ++ PlainMethod.definesAll ms

end

namespace Grammar

/-- The names of the classes that a clause defines. -/
def Clause.defines : Clause → List String
  | .stmt s => s.defines
  | .stmts ss => PlainStmt.definesAll ss
  | .methods ms => PlainMethod.definesAll ms

/-- The classes known behind a clause are those in front of it and those that it defines. -/
theorem Forms.known_eq {known known' : List String} {ts : List Kind} {clause : Clause}
    (h : Forms known ts clause known') : known' = clause.defines.reverse ++ known := by
  induction h with
  | returnNone | returnValue _ | printNone | print _ | eval _ | noStmts | noMethods => rfl
  | assign _ _ hs => cases hs <;> rfl
  | ifThen _ _ _ ih => exact ih
  | ifElse _ _ _ _ _ ih ih' =>
    rw [ih', ih]
    simp [Clause.defines, PlainStmt.defines]
  | define word _ _ _ ih =>
    rw [ih]
    simp [Clause.defines, PlainStmt.defines]
  | nextStmt _ _ ih ih' =>
    rw [ih', ih]
    simp [Clause.defines, PlainStmt.definesAll]
  | nextMethod word _ _ _ _ ih ih' =>
    rw [ih', ih]
    simp [Clause.defines, PlainMethod.definesAll]

/-- No program starts with an indented line, and none with the second branch of a condition. -/
theorem Forms.head_stmts {known known' : List String} {ts : List Kind} {ss : List PlainStmt}
    (h : Forms known ts (.stmts ss) known') (rest : List Kind) :
    ∀ k ∈ (ts ++ .eof :: rest).head?, k ≠ .indent ∧ k ≠ .keyword .elseWord := by
  cases h with
  | noStmts =>
    rintro k ⟨⟩
    simp
  | nextStmt hs _ =>
    have hexpr : ∀ {us e}, Spells known us (.expr .disjunction e) →
        ∃ k ks, us = k :: ks ∧ k ≠ .indent ∧ k ≠ .keyword .elseWord := by
      intro us e he
      obtain ⟨k, ks, rfl, hk⟩ := he.first
      refine ⟨k, ks, rfl, ?_, ?_⟩
      · rintro rfl
        cases hk
      · rintro rfl
        cases hk
    cases hs with
    | assign ht _ _ =>
      obtain ⟨k, ks, rfl, hk⟩ := hexpr ht
      rintro _ ⟨⟩
      exact hk
    | eval he =>
      obtain ⟨k, ks, rfl, hk⟩ := hexpr he
      rintro _ ⟨⟩
      exact hk
    | _ =>
      rintro _ ⟨⟩
      simp

end Grammar

/-- A program that gets behind its last statement, without a fault and without a return. -/
def Program.Completes (g : Guest) (p : Program) (m : Machine) : Prop :=
  ∃ x m', Stmt.execAll g p.body m = (.ok (.next x), m')

theorem Program.completes_cons {g : Guest} {s : Stmt} {ss : List Stmt} {m : Machine} :
    Completes g ⟨s :: ss⟩ m ↔ ∃ m', s.pass g m = (.ok true, m') ∧ Completes g ⟨ss⟩ m' := by
  simp only [Completes, Stmt.execAll, Stmt.pass]
  rcases hs : s.exec g m with ⟨e | completion, m₁⟩
  · rw [bind_of_error hs, bind_of_error hs]
    constructor
    · rintro ⟨x, m', ⟨⟩⟩
    · rintro ⟨m', ⟨⟩, -⟩
  · rw [bind_of_ok hs, bind_of_ok hs]
    cases completion with
    | next x =>
      constructor
      · intro hss
        exact ⟨_, rfl, hss⟩
      · rintro ⟨m', ⟨⟩, hss⟩
        exact hss
    | ret x =>
      constructor
      · rintro ⟨y, m', ⟨⟩⟩
      · rintro ⟨m', ⟨⟩, -⟩

/-- Statements run after others if those complete, and not at all if they do not. -/
theorem Program.exec_append (g : Guest) (ss ts : List Stmt) (m : Machine) :
    (Completes g ⟨ss⟩ m → (exec g ⟨ss⟩ m).1 = .ok () ∧
      exec g ⟨ss ++ ts⟩ m = exec g ⟨ts⟩ (exec g ⟨ss⟩ m).2) ∧
      (¬ Completes g ⟨ss⟩ m → exec g ⟨ss ++ ts⟩ m = exec g ⟨ss⟩ m) := by
  induction ss generalizing m with
  | nil =>
    refine ⟨fun _ => ⟨rfl, rfl⟩, fun hnot => ?_⟩
    exact absurd ⟨.absent, m, rfl⟩ hnot
  | cons s ss ih =>
    rw [List.cons_append, exec_cons, exec_cons, completes_cons]
    rcases hs : s.pass g m with ⟨e | follows, m'⟩
    · rw [bind_of_error hs, bind_of_error hs]
      refine ⟨?_, fun _ => rfl⟩
      rintro ⟨m'', ⟨⟩, -⟩
    · rw [bind_of_ok hs, bind_of_ok hs]
      cases follows with
      | true =>
        refine ⟨?_, fun hnot => (ih m').2 fun hss => hnot ⟨m', rfl, hss⟩⟩
        rintro ⟨m'', ⟨⟩, hss⟩
        exact (ih m').1 hss
      | false =>
        refine ⟨?_, fun _ => rfl⟩
        rintro ⟨m'', ⟨⟩, -⟩

/-- The end of the tokens of a text is that of the text: there is no word `eof` among them. -/
def EndsWithText (source : String) : Prop :=
  ∀ ts, tokenize source = .ok ts → ∀ t ∈ ts, t.kind = .eof →
    t.pos = Position.start.afterAll (utf8 source)

/-- The tokens of a text that is parsed, and the run that reads them. -/
structure ReadBy (source : String) (p : Program) (seen : List Token) (t : Token) (c c' : Cursor) :
    Prop where
  stream : TokenStream.ofSource source = ⟨seen ++ [t], none⟩
  kind : t.kind = .eof
  tokens : c.tokens = seen ++ [t]
  fault : c.fault = none
  classes : c.classes = []
  tidy : c.Tidy
  run : Parse.statements (c.count + 2) (c.count + 2) c = .ok (p.body, c')
  count : c'.count = 1
  forms : Grammar.Forms [] (seen.map (·.kind)) (.stmts (Stmt.plainAll p.body)) c'.known

theorem Cursor.ofStream_eq_ok {ts : List Token} {fault : Option SyntaxError} {c : Cursor}
    (h : Cursor.ofStream ⟨ts, fault⟩ = .ok c) :
    c.tokens = ts ∧ c.fault = fault ∧ c.classes = [] := by
  cases ts with
  | nil => cases fault <;> cases h
  | cons t ts =>
    cases h
    exact ⟨rfl, rfl, rfl⟩

theorem parse_run {source : String} {p : Program} (h : parse source = .ok p) :
    ∃ seen t c c', ReadBy source p seen t c c' := by
  obtain ⟨c, c', hc, hrun⟩ := parse_eq_ok.1 h
  obtain ⟨htidy, hkinds, -, hknown, hfirst⟩ := Cursor.ofSource_tidy hc
  obtain ⟨heof, ts, hpass, hforms⟩ := Grammar.statements_sound _ htidy hfirst hrun
  obtain ⟨seen, hseen, ⟨t, hstream, ht⟩ | ⟨e, hstream⟩⟩ := TokenStream.ofSource_cases source
  · rw [hstream] at hc hkinds hrun
    obtain ⟨htokens, hfault, hclasses⟩ := Cursor.ofStream_eq_ok hc
    have hcount : c.count = (seen ++ [t]).length := congrArg List.length htokens
    have hsplit : ts ++ .eof :: c'.ahead.map (·.kind) = seen.map (·.kind) ++ [.eof] := by
      have hsame := hpass.kinds.symm.trans hkinds
      rwa [Cursor.kinds, heof, List.map_append, List.map_singleton, ht] at hsame
    have hts : ts = seen.map (·.kind) := by
      refine Grammar.eq_of_append_eof hsplit fun hmem => ?_
      obtain ⟨u, hu, hk⟩ := List.mem_map.1 hmem
      exact hseen u hu hk
    have hahead : c'.ahead = [] := by
      rw [hts] at hsplit
      simpa using List.append_cancel_left hsplit
    refine ⟨seen, t, c, c', hstream, ht, htokens, hfault, hclasses, htidy, ?_, ?_, ?_⟩
    · rw [hcount]
      exact hrun
    · rw [Cursor.count, Cursor.tokens, hahead]
      rfl
    · rw [hknown, hts] at hforms
      exact hforms
  · obtain ⟨ts', hts', -⟩ := Grammar.derives_of_parse h
    rw [tokenize, hstream] at hts'
    cases hts'

namespace ReadBy

variable {source : String} {p : Program} {seen : List Token} {t : Token} {c c' : Cursor}

theorem head_kind (h : ReadBy source p seen t c c') :
    ∀ u ∈ (seen ++ [t]).head?, u.kind ≠ .indent ∧ u.kind ≠ .keyword .elseWord := by
  intro u hu
  have hhead := h.forms.head_stmts []
  apply hhead
  rw [← h.kind, ← List.map_singleton (f := Token.kind), ← List.map_append, List.head?_map,
    Option.mem_def.1 hu]
  rfl

theorem ends (h : ReadBy source p seen t c c') : c.kinds.getLast? = some .eof := by
  have hkinds : c.kinds = c.tokens.map (·.kind) := rfl
  rw [hkinds, h.tokens, List.map_append, List.map_singleton, List.getLast?_concat, h.kind]

end ReadBy

/-- The first text of two, seen in front of the tokens of the second. -/
def Window.ofFirst (whole : List Token) (t : Token) (more : List Token) : Window where
  lines := 0
  known := []
  whole := whole
  fault := none
  other := none
  tail := [t]
  more := more
  strict := False
  strict_lines := False.elim
  strict_known := False.elim
  strict_tail := False.elim
  conversion := conversion_nil

/-- The second text of two, some lines further below and with the classes of the first one. -/
def Window.ofSecond (whole : List Token) (lines : Nat) (known : List Class)
    (hknown : ∀ cls ∈ known, cls.name ≠ Parse.conversionName) : Window where
  lines := lines
  known := known
  whole := whole
  fault := none
  other := none
  tail := []
  more := []
  strict := False
  strict_lines := False.elim
  strict_known := False.elim
  strict_tail := False.elim
  conversion := hknown

/-- Statements are read behind those of another text as they are read alone. -/
theorem statements_second {source : String} {p : Program} {seen : List Token} {t : Token}
    {c c' d : Cursor} (h : ReadBy source p seen t c c') (lines : Nat)
    (hknown : ∀ cls ∈ d.classes, cls.name ≠ Parse.conversionName)
    (htokens : d.tokens = (seen ++ [t]).map (Token.down lines)) (hfault : d.fault = none)
    {bound m : Nat} (hbound : c.count + 2 ≤ bound) (hm : c.count + 2 ≤ m) :
    ∃ d', Parse.statements bound m d = .ok (p.body.map (Stmt.down lines), d') := by
  have hexcerpt : (Window.ofSecond c.tokens lines d.classes hknown).Excerpt c d :=
    { fault := h.fault
      ends := fun _ => h.ends
      suffix := List.suffix_refl _
      tokens := by
        refine ⟨seen ++ [t], (seen ++ [t]).map (Token.down lines), by simp, ?_, ?_, ?_⟩
        · rw [h.tokens]
          exact (List.append_nil _).symm
        · rw [htokens]
          exact (List.append_nil _).symm
        · rw [List.forall₂_map_right_iff, List.forall₂_same]
          exact fun u _ => ⟨rfl, fun _ => rfl⟩
      other := hfault
      classes := by
        rw [h.classes]
        rfl }
  have hfollows := Parse.Follows.statements (w := Window.ofSecond c.tokens lines d.classes hknown)
    (S := Kind.Any) hbound (Nat.le_refl (c.count + 2)) hm (Nat.le_refl _)
  obtain ⟨d', hd, -⟩ := hfollows.answers hexcerpt trivial (by omega) h.run c'.count_pos
  exact ⟨d', hd⟩

/-- A text in front of another one is read as alone, and the other one behind it. -/
theorem statements_first {source : String} {p : Program} {front : List Token} {k : Nat}
    {pos pos' : Position} {t : Token} {c c' d : Cursor}
    (h : ReadBy source p (front ++ List.replicate k ⟨.dedent, pos⟩) t c c') {more : List Token}
    (hmore : more ≠ []) (helse : ∀ u ∈ more.head?, u.kind ≠ .keyword .elseWord)
    (htokens : d.tokens = front ++ List.replicate k ⟨.dedent, pos'⟩ ++ more)
    (hfault : d.fault = none) (hclasses : d.classes = []) {bound : Nat}
    (hbound : c.count + 2 ≤ bound) :
    ∃ d' m, d'.tokens = more ∧ d'.fault = none ∧ d'.classes = c'.classes ∧
      bound + 1 ≤ m + c.count ∧
      ∀ rest d'', Parse.statements bound m d' = .ok (rest, d'') →
        Parse.statements bound bound d = .ok (p.body ++ rest, d'') := by
  by_cases hnone : front ++ List.replicate k (⟨.dedent, pos⟩ : Token) = []
  · obtain ⟨rfl, hreplicate⟩ := List.append_eq_nil_iff.1 hnone
    obtain rfl : k = 0 := by simpa using hreplicate
    have hone : c.tokens = [t] := h.tokens
    have hlook : c.lookahead.kind = .eof := by rw [(List.cons.inj hone).1, h.kind]
    have hrun := h.run
    rw [Parse.statements, Parse.kind_bind, hlook] at hrun
    obtain ⟨hbody, rfl⟩ := Parse.pure_eq_ok.1 hrun
    refine ⟨d, bound, htokens, hfault, hclasses.trans h.classes.symm, ?_, ?_⟩
    · have hpos := c.count_pos
      omega
    · intro rest d'' hlater
      rw [← hbody]
      exact hlater
  · have hsame : ∀ u : Token, (Window.ofFirst c.tokens t more).Same u u :=
      fun u => ⟨rfl, fun _ => rfl⟩
    have hdedent : (Window.ofFirst c.tokens t more).Same ⟨.dedent, pos⟩ ⟨.dedent, pos'⟩ :=
      ⟨rfl, fun hplace => absurd hplace (by simp [Window.ofFirst])⟩
    have hexcerpt : (Window.ofFirst c.tokens t more).Excerpt c d :=
      { fault := h.fault
        ends := fun _ => h.ends
        suffix := List.suffix_refl _
        tokens := by
          refine ⟨_, _, hnone, h.tokens, htokens, ?_⟩
          apply List.rel_append (List.forall₂_same.2 fun u _ => hsame u)
          clear htokens hnone h
          induction k with
          | zero => exact .nil
          | succ k ih => exact .cons hdedent ih
        other := hfault
        classes := by
          rw [h.classes, hclasses]
          rfl }
    have hle : c.count ≤ bound := by omega
    obtain ⟨d', m, hseam, hm, hjoin⟩ := hexcerpt.statements hmore ⟨t, rfl, h.kind⟩ helse hbound
      (by omega) (by omega) hle h.run h.count
    refine ⟨d', m, hseam.more, hseam.other, ?_, hm, ?_⟩
    · have hclasses' := hseam.classes
      rw [List.map_congr_left fun cls _ => cls.down_zero, List.map_id'] at hclasses'
      simpa [Window.ofFirst] using hclasses'
    · intro rest d'' hlater
      have hbody : p.body.map (Stmt.down 0) = p.body := by
        rw [← Stmt.downAll_eq_map, Stmt.downAll_zero]
      have hwhole := hjoin rest d'' hlater
      rwa [show (Window.ofFirst c.tokens t more).lines = 0 from rfl, hbody] at hwhole

theorem endsLine_of_break {source : String}
    (h : source = "" ∨ ∃ front, source = front ++ "\n") : Margin.EndsLine (utf8 source) := by
  rcases h with rfl | ⟨front, rfl⟩
  · exact Or.inl Utf8.utf8_empty
  · right
    rw [Utf8.utf8_append, show utf8 "\n" = [Byte.lineFeed] by decide, List.getLast?_concat]

/-- The statements of two texts, the first of which ends with a line break. -/
theorem parse_append {first second : String} {p q : Program}
    (hbreak : first = "" ∨ ∃ front, first = front ++ "\n") (hend : EndsWithText first)
    (hstr : "str" ∉ PlainStmt.definesAll (Stmt.plainAll p.body))
    (hfirst : parse first = .ok p) (hsecond : parse second = .ok q) :
    parse (first ++ second) =
      .ok ⟨p.body ++ (q.down ((utf8 first).count Byte.lineFeed)).body⟩ := by
  generalize hlines : (utf8 first).count Byte.lineFeed = lines
  obtain ⟨seen₁, t₁, c₁, c₁', h₁⟩ := parse_run hfirst
  obtain ⟨seen₂, t₂, c₂, c₂', h₂⟩ := parse_run hsecond
  have hlast : ∀ t ∈ (seen₁ ++ [t₁]).getLast?, t.pos = Position.start.afterAll (utf8 first) := by
    intro t ht
    rw [List.getLast?_concat, Option.mem_some_iff] at ht
    subst ht
    exact hend _ (TokenStream.tokenize_eq_ok.2 h₁.stream) t₁ (by simp) h₁.kind
  obtain ⟨front, k, pos, pos', hsplit, hstream⟩ := TokenStream.ofSource_append
    (endsLine_of_break hbreak) h₁.stream h₂.stream hlast fun t ht => (h₂.head_kind t ht).1
  rw [hlines, ← List.append_assoc] at hstream
  rw [← List.append_assoc] at hsplit
  obtain ⟨rfl, -⟩ := List.append_inj' hsplit rfl
  generalize hmore : (seen₂ ++ [t₂]).map (Token.down lines) = more at hstream
  have hne : more ≠ [] := by
    rw [← hmore]
    simp
  have helse : ∀ u ∈ more.head?, u.kind ≠ .keyword .elseWord := by
    intro u hu
    rw [← hmore, List.head?_map, Option.mem_map] at hu
    obtain ⟨v, hv, rfl⟩ := hu
    exact (h₂.head_kind v hv).2
  obtain ⟨d, hd⟩ : ∃ d, Cursor.ofStream (TokenStream.ofSource (first ++ second)) = .ok d := by
    rw [hstream]
    cases htokens : front ++ List.replicate k (⟨.dedent, pos'⟩ : Token) ++ more with
    | nil => exact absurd (List.append_eq_nil_iff.1 htokens).2 hne
    | cons u us => exact ⟨_, rfl⟩
  obtain ⟨htokens, hfault, hclasses⟩ := Cursor.ofStream_eq_ok (hstream ▸ hd)
  have hcount₁ : c₁.count = front.length + k + 1 := by
    simp only [Cursor.count, h₁.tokens, List.length_append, List.length_replicate,
      List.length_singleton]
  have hcount₂ : c₂.count = more.length := by
    rw [Cursor.count, h₂.tokens, ← hmore, List.length_map]
  have hlength : (TokenStream.ofSource (first ++ second)).tokens.length =
      front.length + k + more.length := by
    simp only [hstream, List.length_append, List.length_replicate]
  have hpos : 0 < more.length := List.length_pos_iff.2 hne
  generalize hbound : (TokenStream.ofSource (first ++ second)).tokens.length + 2 = bound
  have hroom₁ : c₁.count + 2 ≤ bound := by omega
  have hroom₂ : c₂.count + 2 ≤ bound := by omega
  obtain ⟨d', m, htokens', hfault', hclasses', hm, hjoin⟩ :=
    statements_first h₁ hne helse htokens hfault hclasses hroom₁
  have hknown : ∀ cls ∈ d'.classes, cls.name ≠ Parse.conversionName := by
    intro cls hcls hname
    have hmem : cls.name ∈ c₁'.known := List.mem_map.2 ⟨cls, hclasses' ▸ hcls, rfl⟩
    rw [h₁.forms.known_eq, List.append_nil, List.mem_reverse, hname] at hmem
    exact hstr hmem
  have hsteps : c₂.count + 2 ≤ m := by omega
  obtain ⟨d'', hsecond'⟩ := statements_second h₂ lines hknown (htokens'.trans hmore.symm) hfault'
    hroom₂ hsteps
  refine parse_eq_ok.2 ⟨d, d'', hd, ?_⟩
  rw [hbound, hjoin _ _ hsecond', Program.down, Stmt.downAll_eq_map]

/-- Programs compose by concatenation. A text that is empty or ends with a line break, that has no
word `eof` among its tokens and defines no class named `str`, may stand in front of any other text:
the statements of the whole are those of the first text and then those of the second, further below
by the line breaks of the first. Running the whole is running the first program and then, if that
completes without a fault and without a return, the second one where the first has ended. -/
theorem Program.composes_by_concatenation (first second : String) (p q : Program)
    (hbreak : first = "" ∨ ∃ front, first = front ++ "\n") (hend : EndsWithText first)
    (hstr : "str" ∉ PlainStmt.definesAll (Stmt.plainAll p.body))
    (hfirst : parse first = .ok p) (hsecond : parse second = .ok q) :
    ∃ whole, parse (first ++ second) = .ok whole ∧
      whole.body = p.body ++ Stmt.downAll ((utf8 first).count Byte.lineFeed) q.body ∧
      ∀ (limit fuel : Nat) (m : Machine),
        (p.exec (.within limit fuel) m).2.depth = m.depth ∧
        (p.Completes (.within limit fuel) m →
          (p.exec (.within limit fuel) m).1 = .ok () ∧
          whole.exec (.within limit fuel) m =
            (q.down ((utf8 first).count Byte.lineFeed)).exec (.within limit fuel)
              (p.exec (.within limit fuel) m).2) ∧
        (¬ p.Completes (.within limit fuel) m →
          whole.exec (.within limit fuel) m = p.exec (.within limit fuel) m) := by
  refine ⟨_, parse_append hbreak hend hstr hfirst hsecond, rfl, ?_⟩
  intro limit fuel m
  obtain ⟨hcompletes, hstops⟩ := exec_append (.within limit fuel) p.body
    (q.down ((utf8 first).count Byte.lineFeed)).body m
  refine ⟨?_, hcompletes, hstops⟩
  exact p.script.leads_within Machine.later_depth limit fuel m

/-- A text that ends inside two blocks and with a blank line. -/
def openBlocks : String := "class A:\n  def f():\n    return 1\n\n"

/-- A text that defines a class of the same name and uses it. -/
def namesake : String := "class A:\n  def f():\n    return 2\nx = A()\nprint x.f()\n"

/-- The second text keeps its own class, four lines further below. -/
theorem Program.composes_by_concatenation_namesake :
    ∃ whole p q, parse openBlocks = .ok p ∧ parse namesake = .ok q ∧
      parse (openBlocks ++ namesake) = .ok whole ∧
      whole.body = p.body ++ Stmt.downAll 4 q.body := by
  have hend : EndsWithText openBlocks := by
    intro ts hts t ht hk
    have hplaces : ((tokenize openBlocks).toOption.all fun ts => ts.all fun t =>
        t.kind ≠ .eof || t.pos = Position.start.afterAll (utf8 openBlocks)) = true := by
      decide +kernel
    rw [hts] at hplaces
    simpa [hk] using List.all_eq_true.1 hplaces t ht
  have hnames : ((parse openBlocks).toOption.map fun p =>
      PlainStmt.definesAll (Stmt.plainAll p.body)) = some ["A"] := by decide +kernel
  have hsecond : (parse namesake).toOption.isSome = true := by decide +kernel
  have hlines : (utf8 openBlocks).count Byte.lineFeed = 4 := by decide +kernel
  cases hp : parse openBlocks with
  | error e =>
    rw [hp] at hnames
    cases hnames
  | ok p =>
    cases hq : parse namesake with
    | error e =>
      rw [hq] at hsecond
      cases hsecond
    | ok q =>
      have hstr : "str" ∉ PlainStmt.definesAll (Stmt.plainAll p.body) := by
        rw [hp] at hnames
        have hdefines : PlainStmt.definesAll (Stmt.plainAll p.body) = ["A"] :=
          Option.some.inj hnames
        rw [hdefines]
        decide
      obtain ⟨whole, hparse, hbody, -⟩ := composes_by_concatenation openBlocks namesake p q
        (Or.inr ⟨"class A:\n  def f():\n    return 1\n", by decide⟩) hend hstr hp hq
      rw [hlines] at hbody
      exact ⟨whole, p, q, rfl, rfl, hparse, hbody⟩

end Mython
