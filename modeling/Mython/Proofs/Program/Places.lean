import Mython.Proofs.Program.Following
import Mython.Proofs.Program.Outline
import Mython.Proofs.Program.StatementSound
import Mython.Proofs.Token.LineHeads

namespace Mython

open Token (Kind)
open Layout (Near)

/-- A place at the first token behind some opening parentheses. -/
inductive HeadedAt : List Token → Position → Prop
  | here {t : Token} {ts : List Token} (hk : t.kind.isContent = true) : HeadedAt (t :: ts) t.pos
  | paren {t : Token} {ts : List Token} {pos : Position} (hk : t.kind = .mark '(')
      (h : HeadedAt ts pos) : HeadedAt (t :: ts) pos

theorem HeadedAt.head_content {t : Token} {ts : List Token} {pos : Position}
    (h : HeadedAt (t :: ts) pos) : t.kind.isContent = true := by
  cases h with
  | here hk => exact hk
  | paren hk _ => rw [hk]; rfl

/-- Parentheses do not leave the physical line. -/
theorem HeadedAt.line_eq {ts : List Token} {pos : Position} (h : HeadedAt ts pos)
    (hnear : ts.IsChain Near) : ∀ t ∈ ts.head?, pos.line = t.pos.line := by
  induction h with
  | here hk =>
    rintro t ⟨⟩
    rfl
  | @paren t ts pos hk h ih =>
    rintro _ ⟨⟩
    cases ts with
    | nil => cases h
    | cons u ts =>
      obtain ⟨hnext, hrest⟩ := List.isChain_cons_cons.1 hnear
      calc pos.line
          = u.pos.line := ih hrest u rfl
        _ = t.pos.line := hnext hk h.head_content

namespace Parse

/-- Readers of expressions whose place is that of the first token behind parentheses. -/
def Placed (p : Parse Expr) : Prop := ∀ ⦃c e c'⦄, p c = .ok (e, c') → HeadedAt c.tokens e.pos

/-- Operators that leave an operation where its left operand is. -/
def KeepsPlace (operator? : Kind → Option (Expr → Expr → Expr)) : Prop :=
  ∀ k build, operator? k = some build → ∀ l r, (build l r).pos = l.pos

theorem keepsPlace_product : KeepsPlace productOperator? := by
  intro k build hk
  rw [productOperator?.eq_def] at hk
  split at hk <;> cases hk <;> exact fun l r => rfl

theorem keepsPlace_sum : KeepsPlace sumOperator? := by
  intro k build hk
  rw [sumOperator?.eq_def] at hk
  split at hk <;> cases hk <;> exact fun l r => rfl

theorem keepsPlace_conj : KeepsPlace conjOperator? := by
  intro k build hk
  rw [conjOperator?.eq_def] at hk
  split at hk <;> cases hk
  exact fun l r => rfl

theorem keepsPlace_disj : KeepsPlace disjOperator? := by
  intro k build hk
  rw [disjOperator?.eq_def] at hk
  split at hk <;> cases hk
  exact fun l r => rfl

theorem accept_cases {k : Kind} {c c' : Cursor} {b : Bool} (h : accept k c = .ok (b, c')) :
    b = true ∧ c.lookahead.kind = k ∨ b = false ∧ c' = c := by
  rw [accept, sees_bind] at h
  by_cases hk : c.lookahead.kind = k
  · simp only [hk, beq_self_eq_true, if_true] at h
    obtain ⟨u, d, -, hp⟩ := bind_eq_ok.1 h
    exact Or.inl ⟨(pure_eq_ok.1 hp).1.symm, hk⟩
  · simp only [beq_eq_false_iff_ne.2 hk, Bool.false_eq_true, if_false] at h
    obtain ⟨rfl, rfl⟩ := pure_eq_ok.1 h
    exact Or.inr ⟨rfl, rfl⟩

theorem pos_of_leftChain {operand : Parse Expr} {operator? : Kind → Option (Expr → Expr → Expr)}
    (hop : KeepsPlace operator?) (n : Nat) {left e : Expr} {c c' : Cursor}
    (h : leftChain operand operator? n left c = .ok (e, c')) : e.pos = left.pos := by
  induction n generalizing left c with
  | zero => cases h
  | succ n ih =>
    rw [leftChain, kind_bind] at h
    cases hk : operator? c.lookahead.kind with
    | none =>
      rw [hk] at h
      rw [(pure_eq_ok.1 h).1]
    | some build =>
      rw [hk] at h
      obtain ⟨u, d, -, hrest⟩ := bind_eq_ok.1 h
      obtain ⟨right, d', -, hloop⟩ := bind_eq_ok.1 hrest
      calc e.pos
          = (build left right).pos := ih hloop
        _ = left.pos := hop _ build hk left right

theorem Placed.level {operand : Parse Expr} (h : Placed operand)
    {operator? : Kind → Option (Expr → Expr → Expr)} (hop : KeepsPlace operator?) (n : Nat) :
    Placed (do leftChain operand operator? n (← operand)) := by
  intro c e c' hrun
  obtain ⟨left, d, hleft, hloop⟩ := bind_eq_ok.1 hrun
  rw [pos_of_leftChain hop n hloop]
  exact h hleft

theorem Placed.leadingChain {operand : Parse Expr} (h : Placed operand) {operator : Kind}
    (hop : operator.isContent = true) {build : Expr → Position → Expr}
    (hbuild : ∀ e pos, (build e pos).pos = pos) (n : Nat) :
    Placed (leadingChain operator build operand n) := by
  intro c e c' hrun
  cases n with
  | zero => cases hrun
  | succ n =>
    rw [Parse.leadingChain, here_bind] at hrun
    obtain ⟨b, d, ha, hrest⟩ := bind_eq_ok.1 hrun
    rcases accept_cases ha with ⟨rfl, hk⟩ | ⟨rfl, rfl⟩
    · obtain ⟨operand', d', -, hp⟩ := bind_eq_ok.1 hrest
      rw [← (pure_eq_ok.1 hp).1, hbuild]
      exact .here (hk ▸ hop)
    · exact h hrest

/-- What is behind the lookahead once it has been read, unless nothing is. -/
theorem tokens_of_advance {u : Unit} {c c' : Cursor} (h : advance c = .ok (u, c')) :
    c' = c ∨ c.tokens = c.lookahead :: c'.tokens := by
  have hstep := step_of_advance h
  obtain ⟨t, ts, fault, classes⟩ := c
  cases ts with
  | cons v vs =>
    cases hstep
    exact Or.inr rfl
  | nil =>
    cases fault with
    | some e => cases hstep
    | none =>
      cases hstep
      exact Or.inl rfl

theorem pos_of_bareCall {name : String} {args : List Expr} {pos : Position} {c c' : Cursor}
    {e : Expr} (h : bareCall name args pos c = .ok (e, c')) : e.pos = pos := by
  rw [bareCall_eq, get_bind] at h
  cases hcls : c.class? name with
  | some cls =>
    rw [hcls] at h
    rw [← (pure_eq_ok.1 h).1]
    rfl
  | none =>
    rw [hcls, called] at h
    split at h
    · rcases args with _ | ⟨arg, _ | ⟨_, _⟩⟩
      · cases h
      · rw [← (pure_eq_ok.1 h).1]
        rfl
      · cases h
    · cases h

theorem Placed.primary {whole : Parse Expr} (h : Placed whole) (bound : Nat) :
    Placed (primary whole bound) := by
  intro c e c' hrun
  have hhere : ∀ {e : Expr}, e.pos = c.lookahead.pos → c.lookahead.kind.isContent = true →
      HeadedAt c.tokens e.pos := by
    intro e hpos hk
    rw [hpos]
    exact .here hk
  have hliteral : ∀ {literal : Expr}, literal.pos = c.lookahead.pos →
      c.lookahead.kind.isContent = true →
      (do advance; return literal : Parse Expr) c = .ok (e, c') → HeadedAt c.tokens e.pos := by
    intro literal hpos hk hrun
    obtain ⟨u, d, -, hp⟩ := bind_eq_ok.1 hrun
    exact hhere ((pure_eq_ok.1 hp).1 ▸ hpos) hk
  rw [Parse.primary, here_bind, kind_bind] at hrun
  obtain ⟨q, hq, hrun⟩ := reader_of_run hrun
  split at hq <;> subst hq
  · next hk => exact hliteral rfl (by rw [hk]; rfl) hrun
  · next hk => exact hliteral rfl (by rw [hk]; rfl) hrun
  · next hk => exact hliteral rfl (by rw [hk]; rfl) hrun
  · next hk => exact hliteral rfl (by rw [hk]; rfl) hrun
  · next hk => exact hliteral rfl (by rw [hk]; rfl) hrun
  · next hk =>
    obtain ⟨u, d, ha, hrest⟩ := bind_eq_ok.1 hrun
    obtain ⟨inner, d', hinner, hclose⟩ := bind_eq_ok.1 hrest
    obtain ⟨u', d'', -, hp⟩ := bind_eq_ok.1 hclose
    obtain rfl := (pure_eq_ok.1 hp).1
    rcases tokens_of_advance ha with rfl | htokens
    · exact h hinner
    · rw [htokens]
      exact .paren hk (h hinner)
  · next word hk =>
    have hcontent : c.lookahead.kind.isContent = true := by rw [hk]; rfl
    obtain ⟨u, d, ha, hrest⟩ := bind_eq_ok.1 hrun
    obtain ⟨b, d', hb, hrest'⟩ := bind_eq_ok.1 hrest
    cases b with
    | true =>
      obtain ⟨args, d'', -, hcall⟩ := bind_eq_ok.1 hrest'
      exact hhere (pos_of_bareCall hcall) hcontent
    | false => exact hhere ((pure_eq_ok.1 hrest').1 ▸ rfl) hcontent
  · cases hrun

theorem pos_of_select (e : Expr) (word : String) : (e.select word).pos = e.pos := by
  cases e <;> rfl

theorem pos_of_selections {whole : Parse Expr} {bound : Nat} (n : Nat) {e e' : Expr}
    {c c' : Cursor} (h : selections whole bound n e c = .ok (e', c')) : e'.pos = e.pos := by
  induction n generalizing e c with
  | zero => cases h
  | succ n ih =>
    rw [selections] at h
    obtain ⟨b, d, -, hrest⟩ := bind_eq_ok.1 h
    cases b with
    | false => rw [(pure_eq_ok.1 hrest).1]
    | true =>
      obtain ⟨word, d', -, hrest'⟩ := bind_eq_ok.1 hrest
      obtain ⟨b', d'', -, hend⟩ := bind_eq_ok.1 hrest'
      cases b' with
      | true =>
        obtain ⟨args, d₃, -, hloop⟩ := bind_eq_ok.1 hend
        have hpos := ih hloop
        exact hpos
      | false => exact (ih hend).trans (pos_of_select e word)

theorem Placed.selected {whole : Parse Expr} (h : Placed whole) (bound : Nat) :
    Placed (selected whole bound) := by
  intro c e c' hrun
  obtain ⟨first, d, hfirst, hloop⟩ := bind_eq_ok.1 hrun
  rw [pos_of_selections bound hloop]
  exact h.primary bound hfirst

theorem Placed.comparison {whole : Parse Expr} (h : Placed whole) (bound : Nat) :
    Placed (comparison whole bound) := by
  have hfactor : Placed (factor whole bound) :=
    (h.selected bound).leadingChain rfl (fun _ _ => rfl) bound
  have hsum : Placed (sum whole bound) :=
    (hfactor.level keepsPlace_product bound).level keepsPlace_sum bound
  intro c e c' hrun
  obtain ⟨left, d, hleft, hrest⟩ := bind_eq_ok.1 hrun
  rw [kind_bind] at hrest
  cases hk : relation? d.lookahead.kind with
  | none =>
    rw [hk] at hrest
    rw [← (pure_eq_ok.1 hrest).1]
    exact hsum hleft
  | some relation =>
    rw [hk] at hrest
    obtain ⟨u, d', -, hrest'⟩ := bind_eq_ok.1 hrest
    obtain ⟨right, d'', -, hp⟩ := bind_eq_ok.1 hrest'
    rw [← (pure_eq_ok.1 hp).1]
    show HeadedAt c.tokens left.pos
    exact hsum hleft

theorem Placed.disjunction {whole : Parse Expr} (h : Placed whole) (bound : Nat) :
    Placed (disjunction whole bound) := by
  have hinversion : Placed (inversion whole bound) :=
    (h.comparison bound).leadingChain rfl (fun _ _ => rfl) bound
  exact (hinversion.level keepsPlace_conj bound).level keepsPlace_disj bound

/-- Every expression is placed at its first token behind parentheses. -/
theorem placed_expression (bound : Nat) : Placed (expression bound) := by
  have hnested : ∀ n, Placed (nested bound n) := by
    intro n
    induction n with
    | zero =>
      intro c e c' hrun
      cases hrun
    | succ n ih => exact ih.disjunction bound
  exact hnested bound

/-- A reader of one-line statements gives them the place of the first token behind parentheses. -/
def PlacedSimple (p : Parse Stmt) : Prop :=
  ∀ ⦃c s c'⦄, p c = .ok (s, c') → s.isSimple = true ∧ HeadedAt c.tokens s.pos

theorem lookahead_of_expect {k : Kind} {u : Unit} {c c' : Cursor} (h : expect k c = .ok (u, c')) :
    c.lookahead.kind = k := by
  rw [expect, kind_bind] at h
  by_contra hk
  rw [if_neg hk] at h
  cases h

theorem expect_of_accept {k : Kind} {c c' : Cursor} (h : accept k c = .ok (true, c')) :
    expect k c = .ok ((), c') := by
  obtain ⟨-, hk⟩ | ⟨hb, -⟩ := accept_cases h
  · rw [accept, sees_bind] at h
    simp only [hk, beq_self_eq_true, if_true] at h
    obtain ⟨u, d, ha, hp⟩ := bind_eq_ok.1 h
    obtain ⟨-, rfl⟩ := pure_eq_ok.1 hp
    rw [expect, kind_bind, if_pos hk]
    exact ha
  · cases hb

theorem placedSimple_returning (bound : Nat) : PlacedSimple (returning bound) := by
  intro c s c' h
  rw [returning, here_bind] at h
  obtain ⟨u, d, hword, hrest⟩ := bind_eq_ok.1 h
  have hhere : HeadedAt c.tokens c.lookahead.pos := .here (by rw [lookahead_of_expect hword]; rfl)
  rw [sees_bind] at hrest
  split at hrest
  · obtain ⟨rfl, -⟩ := pure_eq_ok.1 hrest
    exact ⟨rfl, hhere⟩
  · obtain ⟨value, d', -, hp⟩ := bind_eq_ok.1 hrest
    obtain ⟨rfl, -⟩ := pure_eq_ok.1 hp
    exact ⟨rfl, hhere⟩

theorem placedSimple_printing (bound : Nat) : PlacedSimple (printing bound) := by
  intro c s c' h
  rw [printing, here_bind] at h
  obtain ⟨u, d, hword, hrest⟩ := bind_eq_ok.1 h
  have hhere : HeadedAt c.tokens c.lookahead.pos := .here (by rw [lookahead_of_expect hword]; rfl)
  rw [sees_bind] at hrest
  split at hrest
  · obtain ⟨rfl, -⟩ := pure_eq_ok.1 hrest
    exact ⟨rfl, hhere⟩
  · obtain ⟨first, d', -, hrest'⟩ := bind_eq_ok.1 hrest
    obtain ⟨others, d'', -, hp⟩ := bind_eq_ok.1 hrest'
    obtain ⟨rfl, -⟩ := pure_eq_ok.1 hp
    exact ⟨rfl, hhere⟩

theorem pos_of_assignment? {target value : Expr} {pos : Position} {s : Stmt}
    (h : assignment? target value pos = some s) : s.isSimple = true ∧ s.pos = pos := by
  rw [assignment?.eq_def] at h
  split at h
  · split at h
    · cases h
      exact ⟨rfl, rfl⟩
    · cases h
      exact ⟨rfl, rfl⟩
  · cases h
    exact ⟨rfl, rfl⟩
  · cases h

theorem placedSimple_simple (bound : Nat) : PlacedSimple (simple bound) := by
  intro c s c' h
  rw [simple, here_bind] at h
  obtain ⟨target, d, htarget, hrest⟩ := bind_eq_ok.1 h
  have hlead := placed_expression bound htarget
  rw [here_bind] at hrest
  obtain ⟨b, d', -, hrest'⟩ := bind_eq_ok.1 hrest
  cases b with
  | true =>
    obtain ⟨value, d'', -, hend⟩ := bind_eq_ok.1 hrest'
    cases hassign : assignment? target value c.lookahead.pos with
    | none =>
      rw [hassign] at hend
      cases hend
    | some stmt =>
      rw [hassign] at hend
      obtain ⟨rfl, -⟩ := pure_eq_ok.1 hend
      obtain ⟨hsimple, hpos⟩ := pos_of_assignment? hassign
      exact ⟨hsimple, hpos ▸ .here hlead.head_content⟩
  | false =>
    obtain ⟨rfl, -⟩ := pure_eq_ok.1 hrest'
    exact ⟨rfl, hlead⟩

end Parse

namespace Grammar

theorem Level.operator?_content {level : Level} {k : Kind}
    {build : PlainExpr → PlainExpr → PlainExpr} (h : level.operator? k = some build) :
    k.isContent = true := by
  rw [Level.operator?.eq_def] at h
  split at h <;> first | rfl | cases h

theorem Level.leading?_content {level : Level} {k : Kind} {build : PlainExpr → PlainExpr}
    (h : level.leading? k = some build) : k.isContent = true := by
  rw [Level.leading?.eq_def] at h
  split at h <;> first | rfl | cases h

theorem relation?_content {k : Kind} {relation : Relation} (h : relation? k = some relation) :
    k.isContent = true := by
  rw [relation?.eq_def] at h
  split at h <;> first | rfl | cases h

/-- The tokens of an expression stand inside one line. -/
theorem Spells.content {known : List String} {ts : List Kind} {phrase : Phrase}
    (h : Spells known ts phrase) : ∀ k ∈ ts, k.isContent = true := by
  induction h with
  | tighter _ ih => exact ih
  | operator hk _ _ ihl ihr =>
    rw [List.forall_mem_append, List.forall_mem_cons]
    exact ⟨ihl, Level.operator?_content hk, ihr⟩
  | leading hk _ ih => exact List.forall_mem_cons.2 ⟨Level.leading?_content hk, ih⟩
  | compare hk _ _ ihl ihr =>
    rw [List.forall_mem_append, List.forall_mem_cons]
    exact ⟨ihl, relation?_content hk, ihr⟩
  | field name _ ih => exact List.forall_mem_append.2 ⟨ih, by simp [Kind.isContent]⟩
  | call name _ _ ih iha =>
    simp only [List.forall_mem_append, List.forall_mem_cons]
    exact ⟨ih, rfl, rfl, rfl, iha, rfl, List.forall_mem_nil _⟩
  | number | text | trueWord | falseWord | noneWord | name | noArgs => simp [Kind.isContent]
  | parens _ ih =>
    simp only [List.forall_mem_append, List.forall_mem_cons]
    exact ⟨rfl, ih, rfl, List.forall_mem_nil _⟩
  | construct _ _ iha =>
    simp only [List.forall_mem_append, List.forall_mem_cons]
    exact ⟨rfl, rfl, iha, rfl, List.forall_mem_nil _⟩
  | stringify _ _ iha =>
    simp only [List.forall_mem_append, List.forall_mem_cons]
    exact ⟨rfl, rfl, iha, rfl, List.forall_mem_nil _⟩
  | lastArg _ ih => exact ih
  | moreArgs _ _ ih ihs =>
    rw [List.forall_mem_append, List.forall_mem_cons]
    exact ⟨ih, rfl, ihs⟩

theorem Listed.content {known : List String} {ts : List Kind} {es : List PlainExpr}
    (h : Listed known ts es) : ∀ k ∈ ts, k.isContent = true := by
  induction h with
  | last h => exact h.content
  | more h _ ih =>
    rw [List.forall_mem_append, List.forall_mem_cons]
    exact ⟨h.content, rfl, ih⟩

theorem Names.content {ts : List Kind} {words : List String} (h : Names ts words) :
    ∀ k ∈ ts, k.isContent = true := by
  induction h with
  | none => simp
  | last word => simp [Kind.isContent]
  | more word _ ih =>
    rw [List.forall_mem_cons, List.forall_mem_cons]
    exact ⟨rfl, rfl, ih⟩

theorem heritage_content (parent : Option String) : ∀ k ∈ heritage parent, k.isContent = true := by
  cases parent <;> simp [heritage, Kind.isContent]

/-- A statement with no block is one line. -/
theorem Forms.line_of_simple {known known' : List String} {ts : List Kind} {s : Stmt}
    (h : Forms known ts (.stmt s.plain) known') (hs : s.isSimple = true) :
    ∃ us, ts = us ++ [.newline] ∧ ∀ k ∈ us, k.isContent = true := by
  generalize hplain : s.plain = plain at h
  cases h with
  | returnNone => exact ⟨[.keyword .returnWord], rfl, by simp [Kind.isContent]⟩
  | @returnValue _ us _ h =>
    exact ⟨.keyword .returnWord :: us, rfl, List.forall_mem_cons.2 ⟨rfl, h.content⟩⟩
  | printNone => exact ⟨[.keyword .printWord], rfl, by simp [Kind.isContent]⟩
  | @print _ us _ h =>
    exact ⟨.keyword .printWord :: us, rfl, List.forall_mem_cons.2 ⟨rfl, h.content⟩⟩
  | @assign _ us vs _ _ _ ht hv _ =>
    refine ⟨us ++ .mark '=' :: vs, by simp, ?_⟩
    rw [List.forall_mem_append, List.forall_mem_cons]
    exact ⟨ht.content, rfl, hv.content⟩
  | @eval _ us _ h => exact ⟨us, rfl, h.content⟩
  | ifThen => cases s <;> simp [Stmt.plain, Stmt.isSimple] at hs hplain
  | ifElse => cases s <;> simp [Stmt.plain, Stmt.isSimple] at hs hplain
  | define => cases s <;> simp [Stmt.plain, Stmt.isSimple] at hs hplain

end Grammar

end Mython
