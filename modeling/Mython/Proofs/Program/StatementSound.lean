import Mython.Proofs.Program.ExpressionSound

namespace Mython

open Token (Kind)
open Parse Cursor

namespace Grammar

theorem Forms.getLast?_stmt {known known' : List String} {ts : List Kind} {s : PlainStmt}
    (h : Forms known ts (.stmt s) known') :
    ts.getLast? = some .newline ∨ ts.getLast? = some .dedent := by
  cases h <;> simp [block, List.getLast?_append, List.getLast?_cons]

/-- What a reader of statements answers is formed by what it has read. -/
def FormsBy (p : Parse Stmt) : Prop :=
  ∀ ⦃c s c'⦄, c.Tidy → p c = .ok (s, c') →
    ∃ ts, Passed ts c c' ∧ Forms c.known ts (.stmt s.plain) c'.known

section Items

variable {item : Parse α} (clause : List α → Clause)

/-- A list of items is formed if each item can stand in front of others. It is empty only if
nothing was read. -/
theorem untilDedent_sound (hnil : ∀ known, Forms known [] (clause []) known)
    (hcons : ∀ ⦃c a c'⦄, c.Tidy → item c = .ok (a, c') → ∃ ts, Passed ts c c' ∧
      ∀ us as known, Forms c'.known us (clause as) known →
        Forms c.known (ts ++ us) (clause (a :: as)) known)
    (n : Nat) {c c' : Cursor} {as : List α} (hc : c.Tidy)
    (h : untilDedent item n c = .ok (as, c')) :
    (∃ ts, Passed ts c c' ∧ Forms c.known ts (clause as) c'.known) ∧ (as = [] → c' = c) := by
  induction n generalizing c as with
  | zero => cases h
  | succ n ih =>
    rw [untilDedent, sees_bind, sees_bind] at h
    split at h
    · obtain ⟨rfl, rfl⟩ := pure_eq_ok.1 h
      exact ⟨⟨[], (Took.refl _).toPassed, hnil _⟩, fun _ => rfl⟩
    · obtain ⟨first, d, hf, hrest⟩ := bind_eq_ok.1 h
      obtain ⟨others, d', ho, hp⟩ := bind_eq_ok.1 hrest
      obtain ⟨rfl, rfl⟩ := pure_eq_ok.1 hp
      obtain ⟨ts, ht, hform⟩ := hcons hc hf
      obtain ⟨⟨us, hu, hothers⟩, -⟩ := ih (ht.tidy hc) ho
      exact ⟨⟨ts ++ us, ht.trans hu, hform us others _ hothers⟩, fun hnil => by cases hnil⟩

/-- An indented block is formed by its items, and has one. -/
theorem block_sound (hnil : ∀ known, Forms known [] (clause []) known)
    (hcons : ∀ ⦃c a c'⦄, c.Tidy → item c = .ok (a, c') → ∃ ts, Passed ts c c' ∧
      ∀ us as known, Forms c'.known us (clause as) known →
        Forms c.known (ts ++ us) (clause (a :: as)) known)
    {n : Nat} {c c' : Cursor} {as : List α} (hc : c.Tidy) (h : indented item n c = .ok (as, c')) :
    (∃ us, Passed (block us) c c' ∧ Forms c.known us (clause as) c'.known) ∧ as ≠ [] := by
  obtain ⟨_, c₁, hcolon, hrest₁⟩ := bind_eq_ok.1 h
  obtain ⟨_, c₂, hnewline, hrest₂⟩ := bind_eq_ok.1 hrest₁
  obtain ⟨_, c₃, hindent, hrest₃⟩ := bind_eq_ok.1 hrest₂
  obtain ⟨items, c₄, hitems, hrest₄⟩ := bind_eq_ok.1 hrest₃
  obtain ⟨_, c₅, hdedent, hp⟩ := bind_eq_ok.1 hrest₄
  obtain ⟨rfl, rfl⟩ := pure_eq_ok.1 hp
  have h₁ := took_of_expect hc (by simp) hcolon
  have h₂ := h₁.trans (took_of_expect (h₁.tidy hc) (by simp) hnewline)
  have h₃ := h₂.trans (took_of_expect (h₂.tidy hc) (by simp) hindent)
  obtain ⟨⟨us, h₄, hform⟩, hempty⟩ := untilDedent_sound clause hnil hcons n (h₃.tidy hc) hitems
  have h₅ := took_of_expect (h₄.tidy (h₃.tidy hc)) (by simp) hdedent
  refine ⟨⟨us, ?_, ?_⟩, ?_⟩
  · simpa [block] using (h₃.toPassed.trans h₄).trans h₅.toPassed
  · rw [h₅.known, ← h₃.known]
    exact hform
  · intro hnone
    rw [hempty hnone] at h₅
    have hnext := h₃.precedes hc (k := .indent) rfl
    rw [lookahead_kind h₅.kinds] at hnext
    simpa using hnext.2 rfl

end Items

theorem names_sound (n : Nat) {c c' : Cursor} {words : List String} (hc : c.Tidy)
    (h : commaList name n c = .ok (words, c')) : ∃ ts, Took ts c c' ∧ Names ts words := by
  induction n generalizing c words with
  | zero => cases h
  | succ n ih =>
    rw [commaList, sees_bind, sees_bind] at h
    split at h
    · obtain ⟨rfl, rfl⟩ := pure_eq_ok.1 h
      exact ⟨[], .refl _, .none⟩
    · obtain ⟨word, d, hw, hrest⟩ := bind_eq_ok.1 h
      have ht := took_of_name hc hw
      obtain ⟨b, d', ha, hrest'⟩ := bind_eq_ok.1 hrest
      rcases accept_eq_ok (ht.tidy hc) (by simp) ha with ⟨rfl, htk⟩ | ⟨rfl, rfl, -⟩
      · obtain ⟨others, d'', ho, hp⟩ := bind_eq_ok.1 hrest'
        obtain ⟨rfl, rfl⟩ := pure_eq_ok.1 hp
        have htd := ht.trans htk
        obtain ⟨us, hu, hothers⟩ := ih (htd.tidy hc) ho
        exact ⟨_, htd.trans hu, .more word hothers⟩
      · obtain ⟨rfl, rfl⟩ := pure_eq_ok.1 hrest'
        exact ⟨[.name word], ht, .last word⟩

theorem printRest_sound {bound : Nat} (n : Nat) {c c' : Cursor} {first : Expr} {es : List Expr}
    {us : List Kind} (hc : c.Tidy) (hf : Spells c.known us (.expr .disjunction first.plain))
    (h : printRest bound n c = .ok (es, c')) :
    ∃ ts, Took ts c c' ∧ Listed c.known (us ++ ts) (Expr.plainAll (first :: es)) := by
  induction n generalizing c first es us with
  | zero => cases h
  | succ n ih =>
    rw [printRest] at h
    obtain ⟨b, d, ha, hrest⟩ := bind_eq_ok.1 h
    rcases accept_eq_ok hc (by simp) ha with ⟨rfl, htk⟩ | ⟨rfl, rfl, -⟩
    · obtain ⟨arg, d', he, hrest'⟩ := bind_eq_ok.1 hrest
      obtain ⟨others, d'', ho, hp⟩ := bind_eq_ok.1 hrest'
      obtain ⟨rfl, rfl⟩ := pure_eq_ok.1 hp
      obtain ⟨ts, ht, harg⟩ := expression_sound bound (htk.tidy hc) he
      have htd := htk.trans ht
      rw [htk.known, ← htd.known] at harg
      obtain ⟨vs, hv, hothers⟩ := ih (htd.tidy hc) harg ho
      refine ⟨_, htd.trans hv, ?_⟩
      rw [htd.known] at hothers
      simpa [Expr.plainAll] using Listed.more hf hothers
    · obtain ⟨rfl, rfl⟩ := pure_eq_ok.1 hrest
      exact ⟨[], .refl _, by simpa [Expr.plainAll] using Listed.last hf⟩

theorem assigns_of_assignment? {target value : Expr} {pos : Position} {s : Stmt}
    (h : assignment? target value pos = some s) : Assigns target.plain value.plain s.plain := by
  rw [assignment?.eq_def] at h
  split at h
  · next root fields origin =>
    split at h
    · next hlast =>
      obtain rfl := List.getLast?_eq_none_iff.1 hlast
      cases h
      exact .root root value.plain
    · next last hlast =>
      cases h
      have hsplit : fields.dropLast ++ [last] = fields :=
        List.dropLast_append_getLast? last hlast
      have hmember := Assigns.member root fields.dropLast last value.plain
      rwa [hsplit] at hmember
  · next object name _ =>
    cases h
    exact .field object.plain name value.plain
  · cases h

theorem returning_sound {bound : Nat} : FormsBy (ended (returning bound)) := by
  intro c s c' hc h
  obtain ⟨s', d, hs, hline⟩ := bind_eq_ok.1 h
  obtain ⟨u, d', hn, hp⟩ := bind_eq_ok.1 hline
  obtain ⟨rfl, rfl⟩ := pure_eq_ok.1 hp
  rw [returning, here_bind] at hs
  obtain ⟨u', e, hw, hrest⟩ := bind_eq_ok.1 hs
  have htw := took_of_expect hc (by simp) hw
  rw [sees_bind] at hrest
  split at hrest
  · obtain ⟨rfl, rfl⟩ := pure_eq_ok.1 hrest
    have htn := htw.trans (took_of_expect (htw.tidy hc) (by simp) hn)
    exact ⟨_, htn.toPassed, htn.known ▸ .returnNone⟩
  · obtain ⟨value, e', hv, hp⟩ := bind_eq_ok.1 hrest
    obtain ⟨rfl, rfl⟩ := pure_eq_ok.1 hp
    obtain ⟨ts, ht, hvalue⟩ := expression_sound bound (htw.tidy hc) hv
    have htv := htw.trans ht
    have htn := htv.trans (took_of_expect (htv.tidy hc) (by simp) hn)
    refine ⟨_, htn.toPassed, ?_⟩
    rw [htn.known]
    exact .returnValue (htw.known ▸ hvalue)

theorem printing_sound {bound : Nat} : FormsBy (ended (printing bound)) := by
  intro c s c' hc h
  obtain ⟨s', d, hs, hline⟩ := bind_eq_ok.1 h
  obtain ⟨u, d', hn, hp⟩ := bind_eq_ok.1 hline
  obtain ⟨rfl, rfl⟩ := pure_eq_ok.1 hp
  rw [printing, here_bind] at hs
  obtain ⟨u', e, hw, hrest⟩ := bind_eq_ok.1 hs
  have htw := took_of_expect hc (by simp) hw
  rw [sees_bind] at hrest
  split at hrest
  · obtain ⟨rfl, rfl⟩ := pure_eq_ok.1 hrest
    have htn := htw.trans (took_of_expect (htw.tidy hc) (by simp) hn)
    exact ⟨_, htn.toPassed, htn.known ▸ .printNone⟩
  · obtain ⟨first, e', hf, hrest'⟩ := bind_eq_ok.1 hrest
    obtain ⟨others, e'', ho, hp⟩ := bind_eq_ok.1 hrest'
    obtain ⟨rfl, rfl⟩ := pure_eq_ok.1 hp
    obtain ⟨ts, ht, hfirst⟩ := expression_sound bound (htw.tidy hc) hf
    have htf := htw.trans ht
    rw [htw.known, ← htf.known] at hfirst
    obtain ⟨us, hu, hall⟩ := printRest_sound bound (htf.tidy hc) hfirst ho
    have htu := htf.trans hu
    have htn := htu.trans (took_of_expect (htu.tidy hc) (by simp) hn)
    refine ⟨_, htn.toPassed, ?_⟩
    rw [htn.known]
    rw [htf.known] at hall
    simpa [Stmt.plain] using Forms.print hall

theorem simple_sound {bound : Nat} : FormsBy (ended (simple bound)) := by
  intro c s c' hc h
  obtain ⟨s', d, hs, hline⟩ := bind_eq_ok.1 h
  obtain ⟨u, d', hn, hp⟩ := bind_eq_ok.1 hline
  obtain ⟨rfl, rfl⟩ := pure_eq_ok.1 hp
  rw [simple, here_bind] at hs
  obtain ⟨target, e, ht, hrest⟩ := bind_eq_ok.1 hs
  obtain ⟨ts, hts, htarget⟩ := expression_sound bound hc ht
  rw [here_bind] at hrest
  obtain ⟨b, e', ha, hrest'⟩ := bind_eq_ok.1 hrest
  rcases accept_eq_ok (hts.tidy hc) (by simp) ha with ⟨rfl, htk⟩ | ⟨rfl, rfl, -⟩
  · obtain ⟨value, e'', hv, hend⟩ := bind_eq_ok.1 hrest'
    have hte := hts.trans htk
    obtain ⟨us, hu, hvalue⟩ := expression_sound bound (hte.tidy hc) hv
    have htu := hte.trans hu
    cases hassign : assignment? target value c.lookahead.pos with
    | none =>
      rw [hassign] at hend
      cases hend
    | some stmt =>
      rw [hassign] at hend
      obtain ⟨rfl, rfl⟩ := pure_eq_ok.1 hend
      have htn := htu.trans (took_of_expect (htu.tidy hc) (by simp) hn)
      refine ⟨_, htn.toPassed, ?_⟩
      rw [htn.known]
      simpa using Forms.assign htarget (hte.known ▸ hvalue) (assigns_of_assignment? hassign)
  · obtain ⟨rfl, rfl⟩ := pure_eq_ok.1 hrest'
    have htn := hts.trans (took_of_expect (hts.tidy hc) (by simp) hn)
    refine ⟨_, htn.toPassed, ?_⟩
    rw [htn.known]
    exact .eval htarget

theorem parent_sound {c c' : Cursor} {found : Option Class} (hc : c.Tidy)
    (h : parent c = .ok (found, c')) :
    Took (heritage (found.map Class.name)) c c' ∧ ∀ p ∈ found.map Class.name, p ∈ c.known := by
  rw [parent] at h
  obtain ⟨b, d, ha, hrest⟩ := bind_eq_ok.1 h
  rcases accept_eq_ok hc (by simp) ha with ⟨rfl, htk⟩ | ⟨rfl, rfl, -⟩
  · rw [if_pos rfl, here_bind] at hrest
    obtain ⟨word, d', hw, hrest'⟩ := bind_eq_ok.1 hrest
    have htw := htk.trans (took_of_name (htk.tidy hc) hw)
    obtain ⟨u, d'', hx, hend⟩ := bind_eq_ok.1 hrest'
    have htx := htw.trans (took_of_expect (htw.tidy hc) (by simp) hx)
    rw [get_bind] at hend
    cases hcls : d''.class? word with
    | none =>
      rw [hcls] at hend
      cases hend
    | some cls =>
      rw [hcls] at hend
      obtain ⟨rfl, rfl⟩ := pure_eq_ok.1 hend
      obtain ⟨hname, hknown⟩ := class?_name hcls
      rw [htx.known] at hknown
      simpa [heritage, hname] using ⟨htx, hknown⟩
  · obtain ⟨rfl, rfl⟩ := pure_eq_ok.1 hrest
    exact ⟨.refl _, by simp⟩

section Inner

variable {inner : Parse Stmt} {bound : Nat}

theorem FormsBy.cons (hs : FormsBy inner) ⦃c : Cursor⦄ ⦃s : Stmt⦄ ⦃c' : Cursor⦄ (hc : c.Tidy)
    (h : inner c = .ok (s, c')) :
    ∃ ts, Passed ts c c' ∧ ∀ us ss known, Forms c'.known us (.stmts (Stmt.plainAll ss)) known →
      Forms c.known (ts ++ us) (.stmts (Stmt.plainAll (s :: ss))) known := by
  obtain ⟨ts, ht, hform⟩ := hs hc h
  exact ⟨ts, ht, fun us ss known hss => .nextStmt hform hss⟩

theorem stmts_block_sound (hs : FormsBy inner) {c c' : Cursor} {ss : List Stmt} (hc : c.Tidy)
    (h : Parse.block inner bound c = .ok (ss, c')) :
    (∃ us, Passed (block us) c c' ∧ Forms c.known us (.stmts (Stmt.plainAll ss)) c'.known) ∧
      Stmt.plainAll ss ≠ [] := by
  obtain ⟨hform, hne⟩ :=
    block_sound (fun ss => .stmts (Stmt.plainAll ss)) (fun _ => .noStmts) hs.cons hc h
  refine ⟨hform, ?_⟩
  cases ss with
  | nil => exact absurd rfl hne
  | cons s ss => simp [Stmt.plainAll]

theorem method_sound (hs : FormsBy inner) ⦃c : Cursor⦄ ⦃m : Method⦄ ⦃c' : Cursor⦄ (hc : c.Tidy)
    (h : method inner bound c = .ok (m, c')) :
    ∃ ts, Passed ts c c' ∧ ∀ us ms known, Forms c'.known us (.methods (Method.plainAll ms)) known →
      Forms c.known (ts ++ us) (.methods (Method.plainAll (m :: ms))) known := by
  rw [method] at h
  obtain ⟨_, c₁, hdef, h₁⟩ := bind_eq_ok.1 h
  obtain ⟨word, c₂, hword, h₂⟩ := bind_eq_ok.1 h₁
  obtain ⟨_, c₃, hopen, h₃⟩ := bind_eq_ok.1 h₂
  obtain ⟨params, c₄, hparams, h₄⟩ := bind_eq_ok.1 h₃
  obtain ⟨_, c₅, hclose, h₅⟩ := bind_eq_ok.1 h₄
  obtain ⟨body, c₆, hbody, hp⟩ := bind_eq_ok.1 h₅
  obtain ⟨rfl, rfl⟩ := pure_eq_ok.1 hp
  have t₁ := took_of_expect hc (by simp) hdef
  have t₂ := t₁.trans (took_of_name (t₁.tidy hc) hword)
  have t₃ := t₂.trans (took_of_expect (t₂.tidy hc) (by simp) hopen)
  obtain ⟨ps, htp, hnames⟩ := names_sound bound (t₃.tidy hc) hparams
  have t₄ := t₃.trans htp
  have t₅ := t₄.trans (took_of_expect (t₄.tidy hc) (by simp) hclose)
  obtain ⟨⟨ts, hpass, hform⟩, hne⟩ := stmts_block_sound hs (t₅.tidy hc) hbody
  refine ⟨_, t₅.toPassed.trans hpass, fun us ms known hms => ?_⟩
  rw [t₅.known] at hform
  simpa [Method.plainAll] using Forms.nextMethod word hnames hform hne hms

theorem classDefinition_sound (hs : FormsBy inner) : FormsBy (classDefinition inner bound) := by
  intro c s c' hc h
  rw [classDefinition_eq, here_bind] at h
  obtain ⟨_, c₁, hclass, h₁⟩ := bind_eq_ok.1 h
  obtain ⟨word, c₂, hword, h₂⟩ := bind_eq_ok.1 h₁
  obtain ⟨found, c₃, hfound, h₃⟩ := bind_eq_ok.1 h₂
  obtain ⟨ms, c₄, hbody, h₄⟩ := bind_eq_ok.1 h₃
  obtain ⟨_, c₅, hadd, hp⟩ := bind_eq_ok.1 h₄
  obtain ⟨rfl, rfl⟩ := pure_eq_ok.1 hp
  cases hadd
  have t₁ := took_of_expect hc (by simp) hclass
  have t₂ := t₁.trans (took_of_name (t₁.tidy hc) hword)
  obtain ⟨htp, hparent⟩ := parent_sound (t₂.tidy hc) hfound
  have t₃ := t₂.trans htp
  obtain ⟨⟨us, hpass, hform⟩, hne⟩ := block_sound (fun ms => .methods (Method.plainAll ms))
    (fun _ => .noMethods) (method_sound hs) (t₃.tidy hc) hbody
  rw [t₂.known] at hparent
  rw [t₃.known] at hform
  have hms : Method.plainAll ms ≠ [] := by
    cases ms with
    | nil => exact absurd rfl hne
    | cons m ms =>
      obtain ⟨word, params, body⟩ := m
      simp [Method.plainAll]
  refine ⟨_, ⟨(t₃.toPassed.trans hpass).kinds, (t₃.toPassed.trans hpass).fault⟩, ?_⟩
  simpa [Stmt.plain, Cursor.known] using Forms.define word hparent hform hms

theorem conditional_sound (hs : FormsBy inner) : FormsBy (conditional inner bound) := by
  intro c s c' hc h
  rw [conditional, here_bind] at h
  obtain ⟨_, c₁, hif, h₁⟩ := bind_eq_ok.1 h
  obtain ⟨condition, c₂, hcond, h₂⟩ := bind_eq_ok.1 h₁
  obtain ⟨body, c₃, hbody, h₃⟩ := bind_eq_ok.1 h₂
  obtain ⟨b, c₄, helse, h₄⟩ := bind_eq_ok.1 h₃
  have t₁ := took_of_expect hc (by simp) hif
  obtain ⟨ts, htc, hc'⟩ := expression_sound bound (t₁.tidy hc) hcond
  have t₂ := t₁.trans htc
  obtain ⟨⟨us, hpass, hform⟩, hne⟩ := stmts_block_sound hs (t₂.tidy hc) hbody
  have p₃ := t₂.toPassed.trans hpass
  rw [t₁.known] at hc'
  rw [t₂.known] at hform
  rcases accept_eq_ok (p₃.tidy hc) (by simp) helse with ⟨rfl, hte⟩ | ⟨rfl, rfl, -⟩
  · obtain ⟨other, c₅, hother, hp⟩ := bind_eq_ok.1 h₄
    obtain ⟨rfl, rfl⟩ := pure_eq_ok.1 hp
    have p₄ := p₃.trans hte.toPassed
    obtain ⟨⟨vs, hpass', hform'⟩, hne'⟩ := stmts_block_sound hs (p₄.tidy hc) hother
    refine ⟨_, p₄.trans hpass', ?_⟩
    rw [hte.known] at hform'
    simpa [Stmt.plain] using Forms.ifElse hc' hform hne hform' hne'
  · obtain ⟨rfl, rfl⟩ := pure_eq_ok.1 h₄
    refine ⟨_, p₃, ?_⟩
    simpa [Stmt.plain] using Forms.ifThen hc' hform hne

theorem anyStatement_sound (hs : FormsBy inner) : FormsBy (anyStatement inner bound) := by
  intro c s c' hc h
  rw [anyStatement, kind_bind] at h
  obtain ⟨q, hq, hrun⟩ := reader_of_run h
  split at hq <;> subst hq
  · exact classDefinition_sound hs hc hrun
  · exact conditional_sound hs hc hrun
  · exact returning_sound hc hrun
  · exact printing_sound hc hrun
  · exact simple_sound hc hrun

end Inner

/-- Every statement that is read is formed by what was read. -/
theorem nestedStatement_sound (bound n : Nat) : FormsBy (nestedStatement bound n) := by
  induction n with
  | zero =>
    intro c s c' hc h
    cases h
  | succ n ih => exact anyStatement_sound ih

/-- Statements up to the end are formed by what was read for them. -/
theorem statements_sound {bound : Nat} (n : Nat) {c c' : Cursor} {ss : List Stmt} (hc : c.Tidy)
    (hfirst : c.lookahead.kind ≠ .newline) (h : statements bound n c = .ok (ss, c')) :
    c'.lookahead.kind = .eof ∧
      ∃ ts, Passed ts c c' ∧ Forms c.known ts (.stmts (Stmt.plainAll ss)) c'.known := by
  induction n generalizing c ss with
  | zero => cases h
  | succ n ih =>
    rw [statements, kind_bind] at h
    obtain ⟨q, hq, hrun⟩ := reader_of_run h
    split at hq <;> subst hq
    · next hk =>
      obtain ⟨rfl, rfl⟩ := pure_eq_ok.1 hrun
      exact ⟨hk, [], (Took.refl _).toPassed, .noStmts⟩
    · next hk => exact absurd hk hfirst
    · obtain ⟨first, d, hf, hrest⟩ := bind_eq_ok.1 hrun
      obtain ⟨others, d', ho, hp⟩ := bind_eq_ok.1 hrest
      obtain ⟨rfl, rfl⟩ := pure_eq_ok.1 hp
      obtain ⟨ts, ht, hform⟩ := nestedStatement_sound bound bound hc hf
      have hnext : d.lookahead.kind ≠ .newline := by
        intro hk
        rcases hform.getLast?_stmt with hl | hl
        · simpa [Kind.isContent] using (ht.precedes hc hl).1 hk
        · simpa [Kind.isContent] using (ht.precedes hc hl).1 hk
      obtain ⟨heof, us, hu, hothers⟩ := ih (ht.tidy hc) hnext ho
      exact ⟨heof, ts ++ us, ht.trans hu, .nextStmt hform hothers⟩

end Grammar

end Mython
