import Mython.Proofs.Program.ExpressionComplete

namespace Mython

open Token (Kind)
open Parse Cursor

namespace Grammar

/-- Tokens that no statement begins with. -/
def divides : Kind → Bool
  | .newline | .dedent | .eof | .keyword .elseWord => true
  | _ => false

theorem divides_of_opens {k : Kind} (h : Level.disjunction.opens k = true) : divides k = false := by
  cases k with
  | keyword w => cases w <;> first | rfl | cases h
  | newline => cases h
  | dedent => cases h
  | eof => cases h
  | _ => rfl

theorem Spells.first {known : List String} {ts : List Kind} {level : Level} {e : PlainExpr}
    (h : Spells known ts (.expr level e)) : ∃ k ks, ts = k :: ks ∧ level.opens k = true := h.opens

theorem Listed.first {known : List String} {ts : List Kind} {es : List PlainExpr}
    (h : Listed known ts es) : ∃ k ks, ts = k :: ks ∧ Level.disjunction.opens k = true := by
  cases h with
  | last h => exact h.first
  | more h _ =>
    obtain ⟨k, ks, rfl, hk⟩ := h.first
    exact ⟨k, _, rfl, hk⟩

theorem Forms.first {known known' : List String} {ts : List Kind} {s : PlainStmt}
    (h : Forms known ts (.stmt s) known') : ∃ k ks, ts = k :: ks ∧ divides k = false := by
  cases h with
  | assign ht _ _ =>
    obtain ⟨k, ks, rfl, hk⟩ := ht.first
    exact ⟨k, _, rfl, divides_of_opens hk⟩
  | eval h =>
    obtain ⟨k, ks, rfl, hk⟩ := h.first
    exact ⟨k, _, rfl, divides_of_opens hk⟩
  | _ => exact ⟨_, _, rfl, rfl⟩

/-- What follows a statement is another one or what follows them all, so not a second block. -/
theorem Forms.follow {known known' : List String} {us : List Kind} {ss : List PlainStmt}
    (h : Forms known us (.stmts ss) known') {k : Kind} (hk : k ≠ .keyword .elseWord)
    (ks : List Kind) : ∃ k' ks', us ++ k :: ks = k' :: ks' ∧ k' ≠ .keyword .elseWord := by
  cases h with
  | noStmts => exact ⟨k, ks, rfl, hk⟩
  | nextStmt h _ =>
    obtain ⟨k', ks', rfl, hk'⟩ := h.first
    refine ⟨k', _, rfl, ?_⟩
    rintro rfl
    cases hk'

/-- Readers of statements and methods get behind what is formed, and answer it. -/
def Answered (known : List String) (ts : List Kind) (known' : List String) : Clause → Prop
  | .stmt s => ∀ (bound n : Nat) ⦃c : Cursor⦄ ⦃k : Kind⦄ ⦃ks : List Kind⦄,
      c.kinds = ts ++ k :: ks → c.known = known → ts.length < bound → ts.length ≤ n →
      k ≠ .keyword .elseWord →
      ∃ s' c', s'.plain = s ∧ Passed ts c c' ∧ c'.known = known' ∧
        nestedStatement bound n c = .ok (s', c')
  | .stmts ss => ∀ (bound n m : Nat) ⦃c : Cursor⦄ ⦃ks : List Kind⦄,
      c.kinds = ts ++ .dedent :: ks → c.known = known → ts.length < bound → ts.length ≤ n →
      ts.length < m →
      ∃ ss' c', Stmt.plainAll ss' = ss ∧ Passed ts c c' ∧ c'.known = known' ∧
        untilDedent (nestedStatement bound n) m c = .ok (ss', c')
  | .methods ms => ∀ (bound n m : Nat) ⦃c : Cursor⦄ ⦃ks : List Kind⦄,
      c.kinds = ts ++ .dedent :: ks → c.known = known → ts.length < bound → ts.length ≤ n →
      ts.length < m →
      ∃ ms' c', Method.plainAll ms' = ms ∧ Passed ts c c' ∧ c'.known = known' ∧
        untilDedent (method (nestedStatement bound n) bound) m c = .ok (ms', c')

/-- An expression is read in front of a token that ends it. -/
theorem Spells.expression {known : List String} {ts : List Kind} {e : PlainExpr}
    (h : Spells known ts (.expr .disjunction e)) (bound : Nat) {c : Cursor} {k : Kind}
    {ks : List Kind} (hc : c.kinds = ts ++ k :: ks) (hknown : c.known = known)
    (hb : ts.length < bound) (hk : Level.continuing? k = none) :
    ∃ e' c', e'.plain = e ∧ Took ts c c' ∧ Parse.expression bound c = .ok (e', c') :=
  Reaches.nested h.reaches bound bound hc hknown hb hb hk

theorem Names.read {ps : List Kind} {words : List String} (h : Names ps words) {m : Nat}
    {c : Cursor} {ks : List Kind} (hc : c.kinds = ps ++ .mark ')' :: ks) (hm : ps.length < m) :
    ∃ c', Took ps c c' ∧ commaList name m c = .ok (words, c') := by
  induction h generalizing m c with
  | none =>
    obtain ⟨m, rfl⟩ := Nat.exists_eq_succ_of_ne_zero (Nat.ne_zero_of_lt hm)
    refine ⟨c, .refl c, ?_⟩
    rw [commaList, sees_bind, sees_bind, lookahead_kind hc]
    rfl
  | last word =>
    obtain ⟨m, rfl⟩ := Nat.exists_eq_succ_of_ne_zero (Nat.ne_zero_of_lt hm)
    obtain ⟨c₁, hw, htw⟩ := name_of_kinds hc (by simp)
    refine ⟨c₁, htw, ?_⟩
    rw [Nat.succ_eq_add_one, commaList_of_opens (by rw [lookahead_kind hc]; rfl), bind_of_ok hw,
      bind_of_ok (accept_of_ne (htw.left hc) (by decide))]
    rfl
  | @more us words word _ ih =>
    simp only [List.length_cons] at hm
    obtain ⟨m, rfl⟩ := Nat.exists_eq_succ_of_ne_zero (Nat.ne_zero_of_lt hm)
    obtain ⟨c₁, hw, htw⟩ := name_of_kinds hc (by simp)
    have hc₁ := htw.left hc
    obtain ⟨c₂, ha, hta⟩ := accept_of_kinds hc₁ (by simp)
    obtain ⟨c₃, hts, hrest⟩ := ih (m := m) (hta.left hc₁) (by omega)
    refine ⟨c₃, (htw.trans hta).trans hts, ?_⟩
    rw [Nat.succ_eq_add_one, commaList_of_opens (by rw [lookahead_kind hc]; rfl), bind_of_ok hw,
      bind_of_ok ha, if_pos rfl, bind_of_ok hrest]
    rfl

/-- The arguments of a print statement are read up to its line end. -/
theorem Listed.read {known : List String} {ts : List Kind} {es : List PlainExpr}
    (h : Listed known ts es) (bound : Nat) {m : Nat} {c : Cursor} {ks : List Kind}
    (hc : c.kinds = ts ++ .newline :: ks) (hknown : c.known = known) (hb : ts.length < bound)
    (hm : ts.length ≤ m) :
    ∃ first others c₁ c', Expr.plainAll (first :: others) = es ∧ Took ts c c' ∧
      Parse.expression bound c = .ok (first, c₁) ∧ printRest bound m c₁ = .ok (others, c') := by
  induction h generalizing m c with
  | last h =>
    obtain ⟨k₀, ks₀, rfl, -⟩ := h.first
    obtain ⟨m, rfl⟩ := Nat.exists_eq_succ_of_ne_zero (Nat.ne_zero_of_lt hm)
    obtain ⟨e', c₁, he, ht, hrun⟩ := h.expression bound hc hknown hb rfl
    refine ⟨e', [], c₁, c₁, ?_, ht, hrun, ?_⟩
    · rw [Expr.plainAll, he]
      rfl
    · rw [printRest, bind_of_ok (accept_of_ne (ht.left hc) (by decide))]
      rfl
  | more h _ ih =>
    simp only [List.length_append, List.length_cons] at hb hm
    obtain ⟨m, rfl⟩ : ∃ m', m = m' + 1 := ⟨m - 1, by omega⟩
    rw [List.append_assoc, List.cons_append] at hc
    obtain ⟨e', c₁, he, ht, hrun⟩ := h.expression bound hc hknown (by omega) rfl
    have hc₁ := ht.left hc
    obtain ⟨c₂, ha, hta⟩ := accept_of_kinds hc₁ (by simp)
    obtain ⟨first, others, c₃, c', hes, hts, hfirst, hothers⟩ := ih (m := m) (hta.left hc₁)
      (by rw [hta.known, ht.known, hknown]) (by omega) (by omega)
    refine ⟨e', first :: others, c₁, c', ?_, ?_, hrun, ?_⟩
    · rw [Expr.plainAll, he, hes]
    · simpa using (ht.trans hta).trans hts
    · rw [printRest, bind_of_ok ha, if_pos rfl, bind_of_ok hfirst, bind_of_ok hothers]
      rfl

/-- Items are read as an indented block if they are read up to its end. -/
theorem indented_of_kinds {item : Parse α} {m : Nat} {us : List Kind} {known' : List String}
    (Good : List α → Prop) {c : Cursor} {k : Kind} {ks : List Kind}
    (hc : c.kinds = block us ++ k :: ks)
    (h : ∀ d : Cursor, d.kinds = us ++ .dedent :: k :: ks → d.known = c.known →
      ∃ as d', Good as ∧ Passed us d d' ∧ d'.known = known' ∧
        untilDedent item m d = .ok (as, d')) :
    ∃ as c', Good as ∧ Passed (block us) c c' ∧ c'.known = known' ∧
      indented item m c = .ok (as, c') := by
  simp only [block, List.cons_append, List.append_assoc, List.nil_append] at hc
  obtain ⟨c₁, hcolon, t₁⟩ := expect_of_kinds hc (by simp)
  have hc₁ := t₁.left hc
  obtain ⟨c₂, hnewline, t₂⟩ := expect_of_kinds hc₁ (by simp)
  have hc₂ := t₂.left hc₁
  obtain ⟨c₃, hindent, t₃⟩ := expect_of_kinds hc₂ (by simp)
  have hc₃ := t₃.left hc₂
  have t₀₃ := (t₁.trans t₂).trans t₃
  obtain ⟨as, c₄, hgood, hp, hknown', hitems⟩ := h c₃ hc₃ t₀₃.known
  obtain ⟨c₅, hdedent, t₅⟩ := expect_of_kinds (hp.left hc₃) (by simp)
  refine ⟨as, c₅, hgood, ?_, t₅.known.trans hknown', ?_⟩
  · simpa [block] using (t₀₃.toPassed.trans hp).trans t₅.toPassed
  · rw [indented, bind_of_ok hcolon, bind_of_ok hnewline, bind_of_ok hindent, bind_of_ok hitems,
      bind_of_ok hdedent]
    rfl

section Rules

variable {known known' known'' : List String} {ts us vs : List Kind}

theorem Answered.block {ss : List PlainStmt} (h : Answered known us known' (.stmts ss))
    (bound n : Nat) {c : Cursor} {k : Kind} {ks : List Kind} (hc : c.kinds = block us ++ k :: ks)
    (hknown : c.known = known) (hb : us.length < bound) (hn : us.length ≤ n) :
    ∃ ss' c', Stmt.plainAll ss' = ss ∧ Passed (Grammar.block us) c c' ∧ c'.known = known' ∧
      Parse.block (nestedStatement bound n) bound c = .ok (ss', c') := by
  refine indented_of_kinds (fun ss' => Stmt.plainAll ss' = ss) hc fun d hd hdk => ?_
  exact h bound n bound hd (hdk.trans hknown) hb hn hb

theorem answered_of_ended {s : PlainStmt}
    (h : ∀ (bound : Nat) (inner : Parse Stmt) ⦃c : Cursor⦄ ⦃ks : List Kind⦄,
      c.kinds = ts ++ .newline :: ks → c.known = known → ts.length < bound →
      ∃ (p : Parse Stmt) (s' : Stmt) (c' : Cursor), anyStatement inner bound c = ended p c ∧
        s'.plain = s ∧ Took ts c c' ∧ p c = .ok (s', c')) :
    Answered known (ts ++ [.newline]) known (.stmt s) := by
  intro bound n c k ks hc hknown hb hn _
  simp only [List.length_append, List.length_cons, List.length_nil] at hb hn
  rw [List.append_assoc, List.cons_append, List.nil_append] at hc
  obtain ⟨n, rfl⟩ : ∃ n', n = n' + 1 := ⟨n - 1, by omega⟩
  obtain ⟨p, s', c₁, hany, hs, ht, hrun⟩ :=
    h bound (nestedStatement bound n) hc hknown (by omega)
  obtain ⟨c₂, hx, htx⟩ := expect_of_kinds (ht.left hc) (by simp)
  have htaken := ht.trans htx
  refine ⟨s', c₂, hs, htaken.toPassed, htaken.known.trans hknown, ?_⟩
  rw [nestedStatement, hany, ended, bind_of_ok hrun, bind_of_ok hx]
  rfl

theorem answered_returnNone :
    Answered known ([.keyword .returnWord] ++ [.newline]) known (.stmt (.ret none)) := by
  refine answered_of_ended fun bound inner c ks hc hknown hb => ?_
  obtain ⟨c₁, hw, htw⟩ := expect_of_kinds hc (by simp)
  refine ⟨returning bound, .ret none c.lookahead.pos, c₁, ?_, rfl, htw, ?_⟩
  · rw [anyStatement, kind_bind, lookahead_kind hc]
  · rw [returning, here_bind, bind_of_ok hw, sees_bind, lookahead_kind (htw.left hc)]
    rfl

theorem answered_returnValue {e : PlainExpr} (h : Spells known ts (.expr .disjunction e)) :
    Answered known ((.keyword .returnWord :: ts) ++ [.newline]) known (.stmt (.ret (some e))) := by
  refine answered_of_ended fun bound inner c ks hc hknown hb => ?_
  rw [List.length_cons] at hb
  obtain ⟨c₁, hw, htw⟩ := expect_of_kinds hc (by simp)
  have hc₁ := htw.left hc
  obtain ⟨e', c₂, he, hte, hrun⟩ :=
    h.expression bound hc₁ (htw.known.trans hknown) (by omega) rfl
  obtain ⟨k₀, ks₀, rfl, hopen⟩ := h.first
  refine ⟨returning bound, .ret (some e') c.lookahead.pos, c₂, ?_, ?_, htw.trans hte, ?_⟩
  · rw [anyStatement, kind_bind, lookahead_kind hc]
  · rw [Stmt.plain, Option.map_some, he]
  · have hsees : (c₁.lookahead.kind == Kind.newline) = false := by
      rw [lookahead_kind hc₁]
      exact beq_eq_false_iff_ne.2 (by rintro rfl; cases hopen)
    rw [returning, here_bind, bind_of_ok hw, sees_bind, hsees, if_neg Bool.false_ne_true,
      bind_of_ok hrun]
    rfl

theorem answered_printNone :
    Answered known ([.keyword .printWord] ++ [.newline]) known (.stmt (.print [])) := by
  refine answered_of_ended fun bound inner c ks hc hknown hb => ?_
  obtain ⟨c₁, hw, htw⟩ := expect_of_kinds hc (by simp)
  refine ⟨printing bound, .print [] c.lookahead.pos, c₁, ?_, rfl, htw, ?_⟩
  · rw [anyStatement, kind_bind, lookahead_kind hc]
  · rw [printing, here_bind, bind_of_ok hw, sees_bind, lookahead_kind (htw.left hc)]
    rfl

theorem answered_print {es : List PlainExpr} (h : Listed known ts es) :
    Answered known ((.keyword .printWord :: ts) ++ [.newline]) known (.stmt (.print es)) := by
  refine answered_of_ended fun bound inner c ks hc hknown hb => ?_
  rw [List.length_cons] at hb
  obtain ⟨c₁, hw, htw⟩ := expect_of_kinds hc (by simp)
  have hc₁ := htw.left hc
  obtain ⟨first, others, c₂, c₃, hes, hts, hfirst, hothers⟩ :=
    h.read bound (m := bound) hc₁ (htw.known.trans hknown) (by omega) (by omega)
  obtain ⟨k₀, ks₀, rfl, hopen⟩ := h.first
  refine ⟨printing bound, .print (first :: others) c.lookahead.pos, c₃, ?_, ?_, htw.trans hts, ?_⟩
  · rw [anyStatement, kind_bind, lookahead_kind hc]
  · rw [Stmt.plain, hes]
  · have hsees : (c₁.lookahead.kind == Kind.newline) = false := by
      rw [lookahead_kind hc₁]
      exact beq_eq_false_iff_ne.2 (by rintro rfl; cases hopen)
    rw [printing, here_bind, bind_of_ok hw, sees_bind, hsees, if_neg Bool.false_ne_true,
      bind_of_ok hfirst, bind_of_ok hothers]
    rfl

/-- What an expression can begin with begins none of the other statements. -/
theorem anyStatement_of_opens {inner : Parse Stmt} {bound : Nat} {c : Cursor}
    (h : Level.disjunction.opens c.lookahead.kind = true) :
    anyStatement inner bound c = ended (simple bound) c := by
  rw [anyStatement, kind_bind]
  generalize c.lookahead.kind = k at h
  cases k with
  | keyword w => cases w <;> first | rfl | cases h
  | _ => rfl

theorem assignment?_of_assigns {target value : Expr} {s : PlainStmt}
    (h : Assigns target.plain value.plain s) (pos : Position) :
    ∃ s', assignment? target value pos = some s' ∧ s'.plain = s := by
  generalize htarget : target.plain = plain at h
  cases h with
  | root name =>
    cases target <;> cases htarget
    exact ⟨_, rfl, rfl⟩
  | member root fields last =>
    cases target <;> cases htarget
    next origin =>
      refine ⟨.assignField (.path root fields origin) last value pos, ?_, rfl⟩
      simp [assignment?]
  | field object name =>
    cases target <;> cases htarget
    exact ⟨_, rfl, rfl⟩

theorem answered_assign {target value : PlainExpr} {s : PlainStmt}
    (ht : Spells known ts (.expr .disjunction target))
    (hv : Spells known us (.expr .disjunction value)) (hs : Assigns target value s) :
    Answered known ((ts ++ .mark '=' :: us) ++ [.newline]) known (.stmt s) := by
  refine answered_of_ended fun bound inner c ks hc hknown hb => ?_
  simp only [List.length_append, List.length_cons] at hb
  rw [List.append_assoc, List.cons_append] at hc
  obtain ⟨target', c₁, htarget, htt, hrun⟩ := ht.expression bound hc hknown (by omega) rfl
  have hc₁ := htt.left hc
  obtain ⟨c₂, ha, hta⟩ := accept_of_kinds hc₁ (by simp)
  have htaken := htt.trans hta
  obtain ⟨value', c₃, hvalue, htv, hrun'⟩ :=
    hv.expression bound (hta.left hc₁) (htaken.known.trans hknown) (by omega) rfl
  subst htarget hvalue
  obtain ⟨s', hassign, hs'⟩ := assignment?_of_assigns hs c.lookahead.pos
  obtain ⟨k₀, ks₀, rfl, hopen⟩ := ht.first
  refine ⟨simple bound, s', c₃, ?_, hs', ?_, ?_⟩
  · exact anyStatement_of_opens (lookahead_kind hc ▸ hopen)
  · simpa using htaken.trans htv
  · rw [simple, here_bind, bind_of_ok hrun, here_bind, bind_of_ok ha, if_pos rfl, bind_of_ok hrun',
      hassign]
    rfl

theorem answered_eval {e : PlainExpr} (h : Spells known ts (.expr .disjunction e)) :
    Answered known (ts ++ [.newline]) known (.stmt (.eval e)) := by
  obtain ⟨k₀, ks₀, rfl, hopen⟩ := h.first
  refine answered_of_ended fun bound inner c ks hc hknown hb => ?_
  obtain ⟨e', c₁, he, hte, hrun⟩ := h.expression bound hc hknown hb rfl
  refine ⟨simple bound, .eval e', c₁, ?_, ?_, hte, ?_⟩
  · exact anyStatement_of_opens (lookahead_kind hc ▸ hopen)
  · rw [Stmt.plain, he]
  · rw [simple, here_bind, bind_of_ok hrun, here_bind,
      bind_of_ok (accept_of_ne (hte.left hc) (by decide))]
    rfl

theorem answered_ifThen {e : PlainExpr} {ss : List PlainStmt}
    (hc : Spells known ts (.expr .disjunction e)) (hb : Answered known us known' (.stmts ss)) :
    Answered known (.keyword .ifWord :: (ts ++ block us)) known' (.stmt (.ifThen e ss)) := by
  intro bound n c k ks hkinds hknown hbound hn hk
  simp only [List.length_cons, List.length_append, block, List.length_nil] at hbound hn
  obtain ⟨n, rfl⟩ : ∃ n', n = n' + 1 := ⟨n - 1, by omega⟩
  rw [List.cons_append, List.append_assoc] at hkinds
  obtain ⟨c₁, hif, t₁⟩ := expect_of_kinds hkinds (by simp)
  have hc₁ := t₁.left hkinds
  obtain ⟨e', c₂, he, hte, hcond⟩ :=
    hc.expression bound hc₁ (t₁.known.trans hknown) (by omega) rfl
  have hc₂ := hte.left hc₁
  have t₂ := t₁.trans hte
  obtain ⟨ss', c₃, hss, hp, hknown', hbody⟩ :=
    hb.block bound n hc₂ (t₂.known.trans hknown) (by omega) (by omega)
  refine ⟨.ifThen e' ss' c.lookahead.pos, c₃, ?_, t₂.toPassed.trans hp, hknown', ?_⟩
  · rw [Stmt.plain, he, hss]
  · rw [nestedStatement, anyStatement, kind_bind, lookahead_kind hkinds]
    simp only
    rw [conditional, here_bind, bind_of_ok hif, bind_of_ok hcond, bind_of_ok hbody,
      bind_of_ok (accept_of_ne (hp.left hc₂) hk)]
    rfl

theorem answered_ifElse {e : PlainExpr} {ss ss' : List PlainStmt}
    (hc : Spells known ts (.expr .disjunction e)) (hb : Answered known us known' (.stmts ss))
    (ho : Answered known' vs known'' (.stmts ss')) :
    Answered known (.keyword .ifWord :: (ts ++ (block us ++ .keyword .elseWord :: block vs)))
      known'' (.stmt (.ifElse e ss ss')) := by
  intro bound n c k ks hkinds hknown hbound hn _
  simp only [List.length_cons, List.length_append, block, List.length_nil] at hbound hn
  obtain ⟨n, rfl⟩ : ∃ n', n = n' + 1 := ⟨n - 1, by omega⟩
  rw [List.cons_append, List.append_assoc, List.append_assoc, List.cons_append] at hkinds
  obtain ⟨c₁, hif, t₁⟩ := expect_of_kinds hkinds (by simp)
  have hc₁ := t₁.left hkinds
  obtain ⟨e', c₂, he, hte, hcond⟩ :=
    hc.expression bound hc₁ (t₁.known.trans hknown) (by omega) rfl
  have hc₂ := hte.left hc₁
  have t₂ := t₁.trans hte
  obtain ⟨body, c₃, hss, hp, hknown', hbody⟩ :=
    hb.block bound n hc₂ (t₂.known.trans hknown) (by omega) (by omega)
  have hc₃ := hp.left hc₂
  obtain ⟨c₄, helse, t₄⟩ := accept_of_kinds hc₃ (by simp)
  have hc₄ := t₄.left hc₃
  obtain ⟨other, c₅, hss', hp', hknown'', hother⟩ :=
    ho.block bound n hc₄ (t₄.known.trans hknown') (by omega) (by omega)
  refine ⟨.ifElse e' body other c.lookahead.pos, c₅, ?_, ?_, hknown'', ?_⟩
  · rw [Stmt.plain, he, hss, hss']
  · simpa using ((t₂.toPassed.trans hp).trans t₄.toPassed).trans hp'
  · rw [nestedStatement, anyStatement, kind_bind, lookahead_kind hkinds]
    simp only
    rw [conditional, here_bind, bind_of_ok hif, bind_of_ok hcond, bind_of_ok hbody,
      bind_of_ok helse, if_pos rfl, bind_of_ok hother]
    rfl

theorem parent_of_kinds {found : Option String} {c : Cursor} {k : Kind} {ks : List Kind}
    (hc : c.kinds = heritage found ++ k :: ks) (hknown : ∀ p ∈ found, p ∈ c.known)
    (hk : k ≠ .mark '(') :
    ∃ cls c', cls.map Class.name = found ∧ Took (heritage found) c c' ∧
      parent c = .ok (cls, c') := by
  cases found with
  | none =>
    refine ⟨none, c, rfl, .refl c, ?_⟩
    rw [parent, bind_of_ok (accept_of_ne hc hk)]
    rfl
  | some word =>
    simp only [heritage, List.cons_append, List.nil_append] at hc
    obtain ⟨c₁, ho, t₁⟩ := accept_of_kinds hc (by simp)
    have hc₁ := t₁.left hc
    obtain ⟨c₂, hw, t₂⟩ := name_of_kinds hc₁ (by simp)
    have hc₂ := t₂.left hc₁
    obtain ⟨c₃, hx, t₃⟩ := expect_of_kinds hc₂ (by simp)
    have ht := (t₁.trans t₂).trans t₃
    obtain ⟨cls, hcls, hname⟩ := class?_of_known (ht.known ▸ hknown word rfl)
    refine ⟨some cls, c₃, by rw [Option.map_some, hname], ht, ?_⟩
    rw [parent, bind_of_ok ho, if_pos rfl, here_bind, bind_of_ok hw, bind_of_ok hx, get_bind, hcls]
    rfl

theorem answered_define {ms : List PlainMethod} (word : String) {found : Option String}
    (hp : ∀ p ∈ found, p ∈ known) (hm : Answered known us known' (.methods ms)) :
    Answered known (.keyword .classWord :: .name word :: (heritage found ++ block us))
      (word :: known') (.stmt (.define word found ms)) := by
  intro bound n c k ks hc hknown hbound hn _
  simp only [List.length_cons, List.length_append, block, List.length_nil] at hbound hn
  obtain ⟨n, rfl⟩ : ∃ n', n = n' + 1 := ⟨n - 1, by omega⟩
  simp only [List.cons_append, List.append_assoc] at hc
  obtain ⟨c₁, hclass, t₁⟩ := expect_of_kinds hc (by simp)
  have hc₁ := t₁.left hc
  obtain ⟨c₂, hword, t₂⟩ := name_of_kinds hc₁ (by simp)
  have hc₂ := t₂.left hc₁
  have t₁₂ := t₁.trans t₂
  obtain ⟨cls, c₃, hcls, t₃, hparent⟩ := parent_of_kinds (k := .mark ':') hc₂
    (fun p hmem => by rw [t₁₂.known, hknown]; exact hp p hmem) (by decide)
  have hc₃ := t₃.left hc₂
  have t₁₃ := t₁₂.trans t₃
  obtain ⟨methods, c₄, hms, hpass, hknown', hbody⟩ :=
    indented_of_kinds (fun ms' => Method.plainAll ms' = ms) hc₃
      fun d hd hdk => hm bound n bound hd (by rw [hdk, t₁₃.known, hknown]) (by omega) (by omega)
        (by omega)
  refine ⟨.define ⟨word, methods, cls⟩ c.lookahead.pos,
    { c₄ with classes := ⟨word, methods, cls⟩ :: c₄.classes }, ?_, ?_, ?_, ?_⟩
  · rw [Stmt.plain, hcls, hms]
  · have hall := t₁₃.toPassed.trans hpass
    exact ⟨by simpa [Cursor.kinds] using hall.kinds, hall.fault⟩
  · rw [← hknown']
    rfl
  · rw [nestedStatement, anyStatement, kind_bind, lookahead_kind hc]
    simp only
    rw [classDefinition_eq, here_bind, bind_of_ok hclass, bind_of_ok hword, bind_of_ok hparent,
      bind_of_ok hbody]
    rfl

theorem untilDedent_of_dedent {item : Parse α} {m : Nat} {c : Cursor} {ks : List Kind}
    (hc : c.kinds = .dedent :: ks) (hm : 0 < m) : untilDedent item m c = .ok ([], c) := by
  obtain ⟨m, rfl⟩ := Nat.exists_eq_succ_of_ne_zero hm.ne'
  rw [untilDedent, sees_bind, sees_bind, lookahead_kind hc]
  rfl

theorem untilDedent_of_item {item : Parse α} {m : Nat} {c c' : Cursor} {a : α}
    (hdedent : c.lookahead.kind ≠ .dedent) (heof : c.lookahead.kind ≠ .eof)
    (h : item c = .ok (a, c')) :
    untilDedent item (m + 1) c = (do return a :: (← untilDedent item m) : Parse (List α)) c' := by
  rw [untilDedent, sees_bind, sees_bind, beq_eq_false_iff_ne.2 hdedent, beq_eq_false_iff_ne.2 heof,
    Bool.or_self, if_neg Bool.false_ne_true, bind_of_ok h]

theorem answered_nextStmt {s : PlainStmt} {ss : List PlainStmt}
    (h : Forms known ts (.stmt s) known')
    (hs : Forms known' us (.stmts ss) known'') (ih : Answered known ts known' (.stmt s))
    (ihs : Answered known' us known'' (.stmts ss)) :
    Answered known (ts ++ us) known'' (.stmts (s :: ss)) := by
  intro bound n m c ks hc hknown hb hn hm
  simp only [List.length_append] at hb hn hm
  rw [List.append_assoc] at hc
  obtain ⟨k', ks', hfollow, hk'⟩ := hs.follow (k := .dedent) (by decide) ks
  obtain ⟨s', c₁, hs', hp, hknown₁, hrun⟩ :=
    ih bound n (hfollow ▸ hc) hknown (by omega) (by omega) hk'
  obtain ⟨k₀, ks₀, rfl, hfirst⟩ := h.first
  simp only [List.length_cons] at hb hn hm
  obtain ⟨m, rfl⟩ : ∃ m', m = m' + 1 := ⟨m - 1, by omega⟩
  obtain ⟨ss', c₂, hss', hp', hknown₂, hrest⟩ :=
    ihs bound n m (hp.left hc) hknown₁ (by omega) (by omega) (by omega)
  have hk₀ := lookahead_kind hc
  refine ⟨s' :: ss', c₂, ?_, hp.trans hp', hknown₂, ?_⟩
  · rw [Stmt.plainAll, hs', hss']
  · rw [untilDedent_of_item (by rw [hk₀]; rintro rfl; cases hfirst)
      (by rw [hk₀]; rintro rfl; cases hfirst) hrun, bind_of_ok hrest]
    rfl

theorem answered_nextMethod {ps : List Kind} {params : List String} {ss : List PlainStmt}
    {ms : List PlainMethod} (word : String) (hps : Names ps params)
    (hb : Answered known ts known' (.stmts ss)) (hs : Answered known' us known'' (.methods ms)) :
    Answered known (.keyword .defWord :: .name word :: .mark '(' ::
      (ps ++ .mark ')' :: (block ts ++ us))) known'' (.methods (⟨word, params, ss⟩ :: ms)) := by
  intro bound n m c ks hc hknown hbound hn hm
  simp only [List.length_cons, List.length_append, block, List.length_nil] at hbound hn hm
  obtain ⟨m, rfl⟩ : ∃ m', m = m' + 1 := ⟨m - 1, by omega⟩
  simp only [List.cons_append, List.append_assoc] at hc
  obtain ⟨c₁, hdef, t₁⟩ := expect_of_kinds hc (by simp)
  have hc₁ := t₁.left hc
  obtain ⟨c₂, hword, t₂⟩ := name_of_kinds hc₁ (by simp)
  have hc₂ := t₂.left hc₁
  obtain ⟨c₃, hopen, t₃⟩ := expect_of_kinds hc₂ (by simp)
  have hc₃ := t₃.left hc₂
  obtain ⟨c₄, t₄, hparams⟩ := hps.read (m := bound) hc₃ (by omega)
  have hc₄ := t₄.left hc₃
  obtain ⟨c₅, hclose, t₅⟩ := expect_of_kinds hc₄ (by simp)
  have hc₅ := t₅.left hc₄
  have t₀₅ := (((t₁.trans t₂).trans t₃).trans t₄).trans t₅
  obtain ⟨k', ks', hfollow⟩ : ∃ k' ks', us ++ .dedent :: ks = k' :: ks' := by
    cases us <;> exact ⟨_, _, rfl⟩
  obtain ⟨body, c₆, hss, hp, hknown₆, hbody⟩ :=
    hb.block bound n (hfollow ▸ hc₅) (t₀₅.known.trans hknown) (by omega) (by omega)
  obtain ⟨ms', c₇, hms, hp', hknown₇, hrest⟩ :=
    hs bound n m (hp.left hc₅) hknown₆ (by omega) (by omega) (by omega)
  have hmethod : method (nestedStatement bound n) bound c = .ok (⟨word, params, body⟩, c₆) := by
    rw [method, bind_of_ok hdef, bind_of_ok hword, bind_of_ok hopen, bind_of_ok hparams,
      bind_of_ok hclose, bind_of_ok hbody]
    rfl
  refine ⟨⟨word, params, body⟩ :: ms', c₇, ?_, ?_, hknown₇, ?_⟩
  · rw [Method.plainAll, hss, hms]
  · simpa using (t₀₅.toPassed.trans hp).trans hp'
  · rw [untilDedent_of_item (by rw [lookahead_kind hc]; decide) (by rw [lookahead_kind hc]; decide)
      hmethod, bind_of_ok hrest]
    rfl

end Rules

/-- Everything that is formed is answered. -/
theorem Forms.answered {known known' : List String} {ts : List Kind} {clause : Clause}
    (h : Forms known ts clause known') : Answered known ts known' clause := by
  induction h with
  | returnNone => exact answered_returnNone
  | returnValue h => exact answered_returnValue h
  | printNone => exact answered_printNone
  | print h => exact answered_print h
  | assign ht hv hs => simpa using answered_assign ht hv hs
  | eval h => exact answered_eval h
  | ifThen hc _ _ ih => exact answered_ifThen hc ih
  | ifElse hc _ _ _ _ ih ih' => exact answered_ifElse hc ih ih'
  | define word hp _ _ ih => exact answered_define word hp ih
  | noStmts =>
    intro bound n m c ks hc hknown _ _ hm
    exact ⟨[], c, rfl, (Took.refl c).toPassed, hknown, untilDedent_of_dedent hc hm⟩
  | nextStmt h hs ih ihs => exact answered_nextStmt h hs ih ihs
  | noMethods =>
    intro bound n m c ks hc hknown _ _ hm
    exact ⟨[], c, rfl, (Took.refl c).toPassed, hknown, untilDedent_of_dedent hc hm⟩
  | nextMethod word hps _ _ _ ih ihs => exact answered_nextMethod word hps ih ihs

theorem statements_of_statement {bound m : Nat} {c c' : Cursor} {s : Stmt}
    (hfirst : divides c.lookahead.kind = false) (h : statement bound c = .ok (s, c')) :
    statements bound (m + 1) c =
      (do return s :: (← statements bound m) : Parse (List Stmt)) c' := by
  rw [statements, kind_bind]
  generalize c.lookahead.kind = k at hfirst
  cases k with
  | eof => cases hfirst
  | newline => cases hfirst
  | _ => exact bind_of_ok h

/-- The statements of a program are read up to the end. -/
theorem Forms.program {known known' : List String} {ts : List Kind} {ss : List PlainStmt}
    (h : Forms known ts (.stmts ss) known') (bound : Nat) {m : Nat} {c : Cursor} {ks : List Kind}
    (hc : c.kinds = ts ++ .eof :: ks) (hknown : c.known = known) (hb : ts.length < bound)
    (hm : ts.length < m) :
    ∃ ss' c', Stmt.plainAll ss' = ss ∧ statements bound m c = .ok (ss', c') := by
  induction ss generalizing known ts m c with
  | nil =>
    cases h
    obtain ⟨m, rfl⟩ := Nat.exists_eq_succ_of_ne_zero (Nat.ne_zero_of_lt hm)
    refine ⟨[], c, rfl, ?_⟩
    rw [statements, kind_bind, lookahead_kind hc]
    rfl
  | cons s ss ih =>
    cases h with
    | @nextStmt _ known₁ _ ts us _ _ h hs =>
      simp only [List.length_append] at hb hm
      rw [List.append_assoc] at hc
      obtain ⟨k', ks', hfollow, hk'⟩ := hs.follow (k := .eof) (by decide) ks
      obtain ⟨s', c₁, hs', hp, hknown₁, hrun⟩ :=
        h.answered bound bound (hfollow ▸ hc) hknown (by omega) (by omega) hk'
      obtain ⟨k₀, ks₀, rfl, hfirst⟩ := h.first
      simp only [List.length_cons] at hb hm
      obtain ⟨m, rfl⟩ : ∃ m', m = m' + 1 := ⟨m - 1, by omega⟩
      obtain ⟨ss', c₂, hss', hrest⟩ := ih hs (m := m) (hp.left hc) hknown₁ (by omega) (by omega)
      refine ⟨s' :: ss', c₂, by rw [Stmt.plainAll, hs', hss'], ?_⟩
      rw [statements_of_statement (lookahead_kind hc ▸ hfirst) hrun, bind_of_ok hrest]
      rfl

end Grammar

end Mython
