import Mython.Proofs.Program.Precedence

/-! The induction is on the spelling. For a level that is a loop it cannot say that the reader
answers, because the loop may have to go on behind the expression; it says that the reader gets
behind the expression with a part of its bound left, and goes on. -/

namespace Mython

open Token (Kind)
open Parse Cursor

namespace Grammar

/-- The reader of a level gets behind an expression that is followed by a token which does not
belong to it, and goes on. Arguments are read up to their closing parenthesis. -/
def Reaches (known : List String) (ts : List Kind) : Phrase → Prop
  | .expr level e => ∀ (bound n m : Nat) ⦃c : Cursor⦄ ⦃k : Kind⦄ ⦃ks : List Kind⦄,
      c.kinds = ts ++ k :: ks → c.known = known → ts.length < bound → ts.length ≤ n →
      ts.length < m → level.Hands k →
      ∃ e' c' m', e'.plain = e ∧ Took ts c c' ∧ m ≤ m' + ts.length ∧
        level.reader (nested bound n) bound m c = level.goOn (nested bound n) bound m' e' c'
  | .args es => ∀ (bound n m : Nat) ⦃c : Cursor⦄ ⦃ks : List Kind⦄,
      c.kinds = ts ++ .mark ')' :: ks → c.known = known → ts.length < bound → ts.length < n →
      ts.length < m →
      ∃ es' c', Expr.plainAll es' = es ∧ Took ts c c' ∧
        commaList (nested bound n) m c = .ok (es', c')

section Rules

variable {known : List String} {ts us : List Kind}

/-- In front of a token that ends its expressions, a level answers. -/
theorem Reaches.answers {level : Level} {e : PlainExpr} (h : Reaches known ts (.expr level e))
    (bound n m : Nat) {c : Cursor} {k : Kind} {ks : List Kind} (hc : c.kinds = ts ++ k :: ks)
    (hknown : c.known = known) (hb : ts.length < bound) (hn : ts.length ≤ n) (hm : ts.length < m)
    (hk : level.Ends k) :
    ∃ e' c', e'.plain = e ∧ Took ts c c' ∧
      level.reader (nested bound n) bound m c = .ok (e', c') := by
  obtain ⟨e', c', m', he, ht, hm', hrun⟩ := h bound n m hc hknown hb hn hm hk.hands
  have hnext : c'.lookahead.kind = k := lookahead_kind (ht.left hc)
  refine ⟨e', c', he, ht, ?_⟩
  rw [hrun]
  exact Level.goOn_of_ends (by omega) (hnext ▸ hk)

theorem Reaches.nested {e : PlainExpr} (h : Reaches known ts (.expr .disjunction e))
    (bound n : Nat) {c : Cursor} {k : Kind} {ks : List Kind} (hc : c.kinds = ts ++ k :: ks)
    (hknown : c.known = known) (hb : ts.length < bound) (hn : ts.length < n)
    (hk : Level.continuing? k = none) :
    ∃ e' c', e'.plain = e ∧ Took ts c c' ∧ Parse.nested bound n c = .ok (e', c') := by
  obtain ⟨n, rfl⟩ := Nat.exists_eq_succ_of_ne_zero (Nat.ne_zero_of_lt hn)
  exact h.answers bound n bound hc hknown hb (by omega) hb (Level.ends_of_none hk _)

theorem Reaches.arguments {es : List PlainExpr} (h : Reaches known us (.args es)) (bound n : Nat)
    {c : Cursor} {k : Kind} {ks : List Kind} (hc : c.kinds = us ++ .mark ')' :: k :: ks)
    (hknown : c.known = known) (hb : us.length < bound) (hn : us.length < n) :
    ∃ es' c', Expr.plainAll es' = es ∧ Took (us ++ [.mark ')']) c c' ∧
      Parse.arguments (Parse.nested bound n) bound c = .ok (es', c') := by
  obtain ⟨es', d, hes, ht, hrun⟩ := h bound n bound hc hknown hb hn hb
  obtain ⟨d', hx, htx⟩ := expect_of_kinds (ht.left hc) (by simp)
  refine ⟨es', d', hes, ht.trans htx, ?_⟩
  rw [Parse.arguments, bind_of_ok hrun, bind_of_ok hx]
  rfl

theorem reaches_tighter {level : Level} {e : PlainExpr}
    (hs : Spells known ts (.expr level.tighter e))
    (h : Reaches known ts (.expr level.tighter e)) : Reaches known ts (.expr level e) := by
  intro bound n m c k ks hc hknown hb hn hm hk
  cases hchain : level.isChain with
  | true =>
    rw [Level.Hands, hchain, if_pos rfl] at hk
    obtain ⟨e', c', he, ht, hrun⟩ := h.answers bound n bound hc hknown hb hn hb hk
    refine ⟨e', c', m, he, ht, by omega, ?_⟩
    rw [Level.reader_of_isChain hchain, bind_of_ok hrun]
  | false =>
    rw [Level.Hands, hchain, if_neg Bool.false_ne_true] at hk
    obtain ⟨e', c', he, ht, hrun⟩ := h.answers bound n bound hc hknown hb hn hb hk.tighter
    obtain ⟨k₀, ks₀, rfl, hopen⟩ := hs.opens
    refine ⟨e', c', m, he, ht, by omega, ?_⟩
    obtain ⟨m, rfl⟩ := Nat.exists_eq_succ_of_ne_zero (Nat.ne_zero_of_lt hm)
    have hleading : ∀ {k₁ plain}, level.leading? k₁ = some plain →
        accept k₁ c = .ok (false, c) := by
      intro k₁ plain hk₁
      refine accept_of_ne hc fun heq => ?_
      rw [heq, (Level.opens_leading hk₁).2.1] at hopen
      cases hopen
    cases level with
    | inversion =>
      rw [Level.reader, leadingChain, here_bind, bind_of_ok (hleading rfl)]
      exact hrun
    | factor =>
      rw [Level.reader, leadingChain, here_bind, bind_of_ok (hleading rfl)]
      exact hrun
    | comparison =>
      have hrel : Parse.relation? c'.lookahead.kind = none := by
        rw [lookahead_kind (ht.left hc)]
        cases hfound : relation? k with
        | none => exact hfound
        | some relation =>
          exact absurd (hk .comparison (Level.continuing?_relation hfound)) (Nat.lt_irrefl _)
      have hsum : Parse.sum (Parse.nested bound n) bound c = .ok (e', c') := hrun
      rw [Level.reader, Parse.comparison, bind_of_ok hsum, kind_bind, hrel]
      rfl
    | primary => exact hrun
    | _ => cases hchain

theorem reaches_operator {level : Level} {k₀ : Kind} {plain : PlainExpr → PlainExpr → PlainExpr}
    {l r : PlainExpr} (hop : level.operator? k₀ = some plain)
    (hl : Reaches known ts (.expr level l)) (hr : Reaches known us (.expr level.tighter r)) :
    Reaches known (ts ++ k₀ :: us) (.expr level (plain l r)) := by
  intro bound n m c k ks hc hknown hb hn hm hk
  simp only [List.length_append, List.length_cons] at hb hn hm
  have hchain : level.isChain = true := by
    rw [Level.operator?.eq_def] at hop
    split at hop <;> first | rfl | cases hop
  rw [Level.Hands, hchain, if_pos rfl] at hk
  have hk₀ : level.Hands k₀ := by
    rw [Level.Hands, hchain, if_pos rfl]
    exact Level.ends_of_operator hop
  rw [List.append_assoc, List.cons_append] at hc
  obtain ⟨l', c₁, m₁, hl', ht, hm₁, hrun⟩ :=
    hl bound n m hc hknown (by omega) (by omega) (by omega) hk₀
  obtain ⟨m₁, rfl⟩ : ∃ m', m₁ = m' + 1 := ⟨m₁ - 1, by omega⟩
  have hc₁ := ht.left hc
  obtain ⟨build, hbuild, hstep⟩ := Level.goOn_operator hop
  obtain ⟨c₂, ha, hta⟩ := advance_of_kinds hc₁ (by simp)
  obtain ⟨r', c₃, hr', htr, hright⟩ := hr.answers bound n bound (hta.left hc₁)
    (by rw [hta.known, ht.known, hknown]) (by omega) (by omega) (by omega) hk
  refine ⟨build l' r', c₃, m₁, ?_, ?_, ?_, ?_⟩
  · rw [hbuild, hl', hr']
  · simpa using (ht.trans hta).trans htr
  · simp only [List.length_append, List.length_cons]
    omega
  · rw [hrun, hstep m₁ l' c₁ (lookahead_kind hc₁), bind_of_ok ha, bind_of_ok hright]

theorem reaches_leading {level : Level} {k₀ : Kind} {plain : PlainExpr → PlainExpr} {e : PlainExpr}
    (hop : level.leading? k₀ = some plain) (h : Reaches known ts (.expr level e)) :
    Reaches known (k₀ :: ts) (.expr level (plain e)) := by
  intro bound n m c k ks hc hknown hb hn hm hk
  simp only [List.length_cons] at hb hn hm
  obtain ⟨m, rfl⟩ : ∃ m', m = m' + 1 := ⟨m - 1, by omega⟩
  have hchain := (Level.opens_leading hop).2.2
  rw [Level.Hands, hchain, if_neg Bool.false_ne_true] at hk
  obtain ⟨c₁, ha, hta⟩ := accept_of_kinds hc (by simp)
  obtain ⟨e', c', he, ht, hrun⟩ := h.answers bound n m (hta.left hc)
    (hta.known.trans hknown) (by omega) (by omega) (by omega) hk
  obtain ⟨build, hbuild, hreader⟩ := Level.reader_of_leading hop
  refine ⟨build e' c.lookahead.pos, c', m, ?_, hta.trans ht, ?_, ?_⟩
  · rw [hbuild, he]
  · simp only [List.length_cons]
    omega
  · rw [hreader] at hrun ⊢
    rw [leadingChain, here_bind, bind_of_ok ha, if_pos rfl, bind_of_ok hrun]
    cases level <;> first | rfl | cases hchain

theorem reaches_compare {k₀ : Kind} {relation : Relation} {l r : PlainExpr}
    (hrel : relation? k₀ = some relation) (hl : Reaches known ts (.expr .sum l))
    (hr : Reaches known us (.expr .sum r)) :
    Reaches known (ts ++ k₀ :: us) (.expr .comparison (.compare relation l r)) := by
  intro bound n m c k ks hc hknown hb hn hm hk
  simp only [List.length_append, List.length_cons] at hb hn hm
  have hk₀ : Level.sum.Ends k₀ := by
    intro level hlevel
    rw [Level.continuing?_relation hrel] at hlevel
    cases hlevel
    decide
  rw [List.append_assoc, List.cons_append] at hc
  obtain ⟨l', c₁, hl', ht, hleft⟩ :=
    hl.answers bound n bound hc hknown (by omega) (by omega) (by omega) hk₀
  have hc₁ := ht.left hc
  obtain ⟨c₂, ha, hta⟩ := advance_of_kinds hc₁ (by simp)
  obtain ⟨r', c₃, hr', htr, hright⟩ := hr.answers bound n bound (hta.left hc₁)
    (by rw [hta.known, ht.known, hknown]) (by omega) (by omega) (by omega) (Level.Ends.tighter hk)
  refine ⟨.compare relation l' r' l'.pos, c₃, m, ?_, ?_, by omega, ?_⟩
  · rw [Expr.plain, hl', hr']
  · simpa using (ht.trans hta).trans htr
  · have hsum : Parse.sum (Parse.nested bound n) bound c = .ok (l', c₁) := hleft
    have hsum' : Parse.sum (Parse.nested bound n) bound c₂ = .ok (r', c₃) := hright
    have hfound : Parse.relation? c₁.lookahead.kind = some relation := by
      rw [lookahead_kind hc₁]
      exact hrel
    rw [Level.reader, Parse.comparison, bind_of_ok hsum, kind_bind, hfound]
    simp only
    rw [bind_of_ok ha, bind_of_ok hsum']
    rfl

theorem ends_dot : Level.selection.Hands (.mark '.') := by
  intro level hlevel
  cases hlevel
  decide

theorem reaches_field {e : PlainExpr} (name : String) (h : Reaches known ts (.expr .selection e)) :
    Reaches known (ts ++ [.mark '.', .name name]) (.expr .selection (select e name)) := by
  intro bound n m c k ks hc hknown hb hn hm hk
  simp only [List.length_append, List.length_cons, List.length_nil] at hb hn hm
  rw [List.append_assoc, List.cons_append, List.cons_append, List.nil_append] at hc
  obtain ⟨e', c₁, m₁, he, ht, hm₁, hrun⟩ :=
    h bound n m hc hknown (by omega) (by omega) (by omega) ends_dot
  obtain ⟨m₁, rfl⟩ : ∃ m', m₁ = m' + 1 := ⟨m₁ - 1, by omega⟩
  have hc₁ := ht.left hc
  obtain ⟨c₂, ha, hta⟩ := accept_of_kinds hc₁ (by simp)
  have hc₂ := hta.left hc₁
  obtain ⟨c₃, hw, htw⟩ := name_of_kinds hc₂ (by simp)
  have hk' : k ≠ .mark '(' := by
    rintro rfl
    exact absurd (hk .primary rfl) (by decide)
  refine ⟨e'.select name, c₃, m₁, ?_, ?_, ?_, ?_⟩
  · rw [Expr.plain_select, he]
  · simpa using (ht.trans hta).trans htw
  · simp only [List.length_append, List.length_cons, List.length_nil]
    omega
  · rw [hrun, Level.goOn, selections, bind_of_ok ha, if_pos rfl, bind_of_ok hw,
      bind_of_ok (accept_of_ne (htw.left hc₂) hk')]
    rfl

theorem reaches_call {e : PlainExpr} {es : List PlainExpr} (name : String)
    (h : Reaches known ts (.expr .selection e)) (ha : Reaches known us (.args es)) :
    Reaches known (ts ++ .mark '.' :: .name name :: .mark '(' :: (us ++ [.mark ')']))
      (.expr .selection (.call e name es)) := by
  intro bound n m c k ks hc hknown hb hn hm hk
  simp only [List.length_append, List.length_cons, List.length_nil] at hb hn hm
  simp only [List.append_assoc, List.cons_append, List.nil_append] at hc
  obtain ⟨e', c₁, m₁, he, ht, hm₁, hrun⟩ :=
    h bound n m hc hknown (by omega) (by omega) (by omega) ends_dot
  obtain ⟨m₁, rfl⟩ : ∃ m', m₁ = m' + 1 := ⟨m₁ - 1, by omega⟩
  have hc₁ := ht.left hc
  obtain ⟨c₂, hdot, htd⟩ := accept_of_kinds hc₁ (by simp)
  have hc₂ := htd.left hc₁
  obtain ⟨c₃, hw, htw⟩ := name_of_kinds hc₂ (by simp)
  have hc₃ := htw.left hc₂
  obtain ⟨c₄, ho, hto⟩ := accept_of_kinds hc₃ (by simp)
  have htaken := ((ht.trans htd).trans htw).trans hto
  obtain ⟨es', c₅, hes, hta, hargs⟩ := ha.arguments bound n (hto.left hc₃)
    (htaken.known.trans hknown) (by omega) (by omega)
  refine ⟨.call e' name es' e'.pos, c₅, m₁, ?_, ?_, ?_, ?_⟩
  · rw [Expr.plain, he, hes]
  · simpa using htaken.trans hta
  · simp only [List.length_append, List.length_cons, List.length_nil]
    omega
  · rw [hrun, Level.goOn, selections, bind_of_ok hdot, if_pos rfl, bind_of_ok hw, bind_of_ok ho,
      if_pos rfl, bind_of_ok hargs]
    rfl

theorem reaches_primary {e : PlainExpr}
    (h : ∀ (bound n : Nat) ⦃c : Cursor⦄ ⦃k : Kind⦄ ⦃ks : List Kind⦄, c.kinds = ts ++ k :: ks →
      c.known = known → ts.length < bound → ts.length ≤ n → k ≠ .mark '(' →
      ∃ e' c', e'.plain = e ∧ Took ts c c' ∧ primary (nested bound n) bound c = .ok (e', c')) :
    Reaches known ts (.expr .primary e) := by
  intro bound n m c k ks hc hknown hb hn hm hk
  have hk' : k ≠ .mark '(' := by
    rintro rfl
    exact absurd (hk .primary rfl) (by decide)
  obtain ⟨e', c', he, ht, hrun⟩ := h bound n hc hknown hb hn hk'
  exact ⟨e', c', m, he, ht, by omega, hrun⟩

theorem reaches_literal {k₀ : Kind} {e : Position → Expr} {plain : PlainExpr}
    (he : ∀ pos, (e pos).plain = plain)
    (h : ∀ whole bound c, c.lookahead.kind = k₀ → primary whole bound c =
      (do advance; return e c.lookahead.pos : Parse Expr) c) :
    Reaches known [k₀] (.expr .primary plain) := by
  refine reaches_primary fun bound n c k ks hc _ _ _ _ => ?_
  obtain ⟨c', ha, hta⟩ := advance_of_kinds hc (by simp)
  refine ⟨e c.lookahead.pos, c', he _, hta, ?_⟩
  rw [h _ _ c (lookahead_kind hc), bind_of_ok ha]
  rfl

theorem reaches_parens {e : PlainExpr} (h : Reaches known ts (.expr .disjunction e)) :
    Reaches known (.mark '(' :: (ts ++ [.mark ')'])) (.expr .primary e) := by
  refine reaches_primary fun bound n c k ks hc hknown hb hn _ => ?_
  simp only [List.length_append, List.length_cons, List.length_nil] at hb hn
  simp only [List.append_assoc, List.cons_append, List.nil_append] at hc
  obtain ⟨c₁, ha, hta⟩ := advance_of_kinds hc (by simp)
  have hc₁ := hta.left hc
  obtain ⟨e', c₂, he, hte, hrun⟩ := h.nested bound n hc₁ (hta.known.trans hknown) (by omega)
    (by omega) rfl
  obtain ⟨c₃, hx, htx⟩ := expect_of_kinds (hte.left hc₁) (by simp)
  refine ⟨e', c₃, he, by simpa using (hta.trans hte).trans htx, ?_⟩
  rw [primary, here_bind, kind_bind, lookahead_kind hc]
  simp only
  rw [bind_of_ok ha, bind_of_ok hrun, bind_of_ok hx]
  rfl

theorem reaches_name (word : String) :
    Reaches known [.name word] (.expr .primary (.path word [])) := by
  refine reaches_primary fun bound n c k ks hc hknown hb hn hk => ?_
  obtain ⟨c₁, ha, hta⟩ := advance_of_kinds hc (by simp)
  refine ⟨.path word [] c.lookahead.pos, c₁, rfl, hta, ?_⟩
  rw [primary, here_bind, kind_bind, lookahead_kind hc]
  simp only
  rw [bind_of_ok ha, bind_of_ok (accept_of_ne (hta.left hc) hk)]
  rfl

/-- A call of a bare name is read if the call means something. -/
theorem reaches_bareCall {word : String} {e : PlainExpr} {es : List PlainExpr}
    (ha : Reaches known us (.args es))
    (h : ∀ (c : Cursor) (es' : List Expr) (pos : Position), c.known = known →
      Expr.plainAll es' = es → ∃ e', e'.plain = e ∧ bareCall word es' pos c = .ok (e', c)) :
    Reaches known (.name word :: .mark '(' :: (us ++ [.mark ')'])) (.expr .primary e) := by
  refine reaches_primary fun bound n c k ks hc hknown hb hn _ => ?_
  simp only [List.length_append, List.length_cons, List.length_nil] at hb hn
  simp only [List.append_assoc, List.cons_append, List.nil_append] at hc
  obtain ⟨c₁, hw, htw⟩ := advance_of_kinds hc (by simp)
  have hc₁ := htw.left hc
  obtain ⟨c₂, ho, hto⟩ := accept_of_kinds hc₁ (by simp)
  have htaken := htw.trans hto
  obtain ⟨es', c₃, hes, hta, hargs⟩ := ha.arguments bound n (hto.left hc₁)
    (htaken.known.trans hknown) (by omega) (by omega)
  have hknown₃ : c₃.known = known := by rw [hta.known, htaken.known, hknown]
  obtain ⟨e', he, hcall⟩ := h c₃ es' c.lookahead.pos hknown₃ hes
  refine ⟨e', c₃, he, htaken.trans hta, ?_⟩
  rw [primary, here_bind, kind_bind, lookahead_kind hc]
  simp only
  rw [bind_of_ok hw, bind_of_ok ho, if_pos rfl, bind_of_ok hargs, hcall]

theorem reaches_construct {word : String} {es : List PlainExpr} (hword : word ∈ known)
    (ha : Reaches known us (.args es)) :
    Reaches known (.name word :: .mark '(' :: (us ++ [.mark ')']))
      (.expr .primary (.construct word es)) := by
  refine reaches_bareCall ha fun c es' pos hknown hes => ?_
  obtain ⟨cls, hcls, hname⟩ := class?_of_known (hknown ▸ hword)
  refine ⟨.construct cls es' pos, ?_, ?_⟩
  · rw [Expr.plain, hname, hes]
  · rw [bareCall.eq_def, get_bind, hcls]
    rfl

theorem reaches_stringify {e : PlainExpr} (hstr : "str" ∉ known)
    (ha : Reaches known us (.args [e])) :
    Reaches known (.name "str" :: .mark '(' :: (us ++ [.mark ')']))
      (.expr .primary (.stringify e)) := by
  refine reaches_bareCall ha fun c es' pos hknown hes => ?_
  have hcls : c.class? "str" = none := class?_eq_none.2 (hknown ▸ hstr)
  match es', hes with
  | [e'], hes =>
    obtain rfl : e'.plain = e := by simpa [Expr.plainAll] using hes
    refine ⟨.stringify e' pos, rfl, ?_⟩
    rw [bareCall.eq_def, get_bind, hcls]
    rfl
  | [], hes => cases hes
  | _ :: _ :: _, hes => simp [Expr.plainAll] at hes

theorem reaches_noArgs : Reaches known [] (.args []) := by
  intro bound n m c ks hc _ _ _ hm
  obtain ⟨m, rfl⟩ := Nat.exists_eq_succ_of_ne_zero (Nat.ne_zero_of_lt hm)
  refine ⟨[], c, rfl, .refl c, ?_⟩
  rw [commaList, sees_bind, sees_bind, lookahead_kind hc]
  rfl

theorem commaList_of_opens {item : Parse α} {m : Nat} {c : Cursor}
    (h : Level.disjunction.opens c.lookahead.kind = true) :
    commaList item (m + 1) c = (do
      let first ← item
      if ← accept (.mark ',') then return first :: (← commaList item m) else return [first] :
        Parse (List α)) c := by
  have hclose : c.lookahead.kind ≠ .mark ')' := by
    intro hk
    rw [hk] at h
    cases h
  have heof : c.lookahead.kind ≠ .eof := by
    intro hk
    rw [hk] at h
    cases h
  rw [commaList, sees_bind, sees_bind, beq_eq_false_iff_ne.2 hclose, beq_eq_false_iff_ne.2 heof]
  rfl

theorem reaches_lastArg {e : PlainExpr} (hs : Spells known ts (.expr .disjunction e))
    (h : Reaches known ts (.expr .disjunction e)) : Reaches known ts (.args [e]) := by
  intro bound n m c ks hc hknown hb hn hm
  obtain ⟨m, rfl⟩ := Nat.exists_eq_succ_of_ne_zero (Nat.ne_zero_of_lt hm)
  obtain ⟨e', c', he, ht, hrun⟩ := h.nested bound n hc hknown hb hn rfl
  obtain ⟨k₀, ks₀, rfl, hopen⟩ := hs.opens
  refine ⟨[e'], c', by rw [← he]; rfl, ht, ?_⟩
  rw [Nat.succ_eq_add_one, commaList_of_opens (lookahead_kind hc ▸ hopen), bind_of_ok hrun,
    bind_of_ok (accept_of_ne (ht.left hc) (by decide))]
  rfl

theorem reaches_moreArgs {e : PlainExpr} {es : List PlainExpr}
    (hs : Spells known ts (.expr .disjunction e)) (h : Reaches known ts (.expr .disjunction e))
    (hes : Reaches known us (.args es)) :
    Reaches known (ts ++ .mark ',' :: us) (.args (e :: es)) := by
  intro bound n m c ks hc hknown hb hn hm
  simp only [List.length_append, List.length_cons] at hb hn hm
  simp only [List.append_assoc, List.cons_append] at hc
  obtain ⟨m, rfl⟩ : ∃ m', m = m' + 1 := ⟨m - 1, by omega⟩
  obtain ⟨e', c₁, he, ht, hrun⟩ := h.nested bound n hc hknown (by omega) (by omega) rfl
  have hc₁ := ht.left hc
  obtain ⟨c₂, ha, hta⟩ := accept_of_kinds hc₁ (by simp)
  obtain ⟨es', c₃, hes', hts, hrest⟩ := hes bound n m (hta.left hc₁)
    (by rw [hta.known, ht.known, hknown]) (by omega) (by omega) (by omega)
  obtain ⟨k₀, ks₀, rfl, hopen⟩ := hs.opens
  refine ⟨e' :: es', c₃, ?_, ?_, ?_⟩
  · rw [Expr.plainAll, he, hes']
  · simpa using (ht.trans hta).trans hts
  · rw [commaList_of_opens (lookahead_kind hc ▸ hopen), bind_of_ok hrun, bind_of_ok ha, if_pos rfl,
      bind_of_ok hrest]
    rfl

end Rules

/-- Everything that is spelled is reached. -/
theorem Spells.reaches {known : List String} {ts : List Kind} {phrase : Phrase}
    (h : Spells known ts phrase) : Reaches known ts phrase := by
  induction h with
  | tighter hs ih => exact reaches_tighter hs ih
  | operator hk _ _ ihl ihr => exact reaches_operator hk ihl ihr
  | leading hk _ ih => exact reaches_leading hk ih
  | compare hk _ _ ihl ihr => exact reaches_compare hk ihl ihr
  | field name _ ih => exact reaches_field name ih
  | call name _ _ ih iha => exact reaches_call name ih iha
  | number value =>
    refine reaches_literal (e := .number value) (fun _ => rfl) fun whole bound c hk => ?_
    rw [primary, here_bind, kind_bind, hk]
  | text content =>
    refine reaches_literal (e := .text content) (fun _ => rfl) fun whole bound c hk => ?_
    rw [primary, here_bind, kind_bind, hk]
  | trueWord =>
    refine reaches_literal (e := .truth true) (fun _ => rfl) fun whole bound c hk => ?_
    rw [primary, here_bind, kind_bind, hk]
  | falseWord =>
    refine reaches_literal (e := .truth false) (fun _ => rfl) fun whole bound c hk => ?_
    rw [primary, here_bind, kind_bind, hk]
  | noneWord =>
    refine reaches_literal (e := .none) (fun _ => rfl) fun whole bound c hk => ?_
    rw [primary, here_bind, kind_bind, hk]
  | parens _ ih => exact reaches_parens ih
  | name word => exact reaches_name word
  | construct hk _ iha => exact reaches_construct hk iha
  | stringify hk _ iha => exact reaches_stringify hk iha
  | noArgs => exact reaches_noArgs
  | lastArg hs ih => exact reaches_lastArg hs ih
  | moreArgs hs _ ih ihs => exact reaches_moreArgs hs ih ihs

end Grammar

end Mython
