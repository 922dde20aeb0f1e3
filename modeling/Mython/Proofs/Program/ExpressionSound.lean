import Mython.Proofs.Program.Grammar
import Mython.Proofs.Program.Reader

namespace Mython

open Token (Kind)
open Parse Cursor

namespace Grammar

/-- The operators of a loop are those of a level, apart from places. -/
def Level.Offers (level : Level) (operator? : Kind → Option (Expr → Expr → Expr)) : Prop :=
  ∀ k, Option.Rel (fun build plain => ∀ l r, (build l r).plain = plain l.plain r.plain)
    (operator? k) (level.operator? k)

/-- Where a loop has no operator, the level has none. -/
theorem Level.rel_none {level : Level} {k : Kind}
    {r : (Expr → Expr → Expr) → (PlainExpr → PlainExpr → PlainExpr) → Prop}
    (h : level.operator? k = none) : Option.Rel r none (level.operator? k) := by
  rw [h]
  exact .none

theorem offers_disjunction : Level.disjunction.Offers disjOperator? := by
  intro k
  rw [disjOperator?.eq_def]
  split
  · exact .some fun l r => rfl
  · refine Level.rel_none ?_
    rw [Level.operator?.eq_def]
    split <;> simp_all

theorem offers_conjunction : Level.conjunction.Offers conjOperator? := by
  intro k
  rw [conjOperator?.eq_def]
  split
  · exact .some fun l r => rfl
  · refine Level.rel_none ?_
    rw [Level.operator?.eq_def]
    split <;> simp_all

theorem offers_sum : Level.sum.Offers sumOperator? := by
  intro k
  rw [sumOperator?.eq_def]
  split
  · exact .some fun l r => rfl
  · exact .some fun l r => rfl
  · refine Level.rel_none ?_
    rw [Level.operator?.eq_def]
    split <;> simp_all

theorem offers_product : Level.product.Offers productOperator? := by
  intro k
  rw [productOperator?.eq_def]
  split
  · exact .some fun l r => rfl
  · exact .some fun l r => rfl
  · refine Level.rel_none ?_
    rw [Level.operator?.eq_def]
    split <;> simp_all

theorem Level.operator?_eof (level : Level) : level.operator? .eof = none := by
  cases level <;> rfl

theorem Expr.plain_select (e : Expr) (name : String) :
    (e.select name).plain = Grammar.select e.plain name := by
  cases e <;> rfl

/-- What a reader answers is spelled by what it has read. -/
def SoundAt (level : Level) (p : Parse Expr) : Prop :=
  ∀ ⦃c e c'⦄, c.Tidy → p c = .ok (e, c') →
    ∃ ts, Took ts c c' ∧ Spells c.known ts (.expr level e.plain)

/-- What a loop answers is spelled by what was read before and what it has read. -/
theorem leftChain_sound {level : Level} {operator? : Kind → Option (Expr → Expr → Expr)}
    {operand : Parse Expr} (ho : level.Offers operator?) (hs : SoundAt level.tighter operand)
    (n : Nat) {c c' : Cursor} {left e : Expr} {us : List Kind} (hc : c.Tidy)
    (hl : Spells c.known us (.expr level left.plain))
    (h : leftChain operand operator? n left c = .ok (e, c')) :
    ∃ ts, Took ts c c' ∧ Spells c.known (us ++ ts) (.expr level e.plain) := by
  induction n generalizing c left us with
  | zero => cases h
  | succ n ih =>
    rw [leftChain, kind_bind] at h
    have hrel := ho c.lookahead.kind
    generalize hbuild : operator? c.lookahead.kind = found at h hrel
    generalize hplain : level.operator? c.lookahead.kind = found' at hrel
    cases hrel with
    | none =>
      obtain ⟨rfl, rfl⟩ := pure_eq_ok.1 h
      exact ⟨[], .refl _, by simpa using hl⟩
    | @some build plain hb =>
      have hne : c.lookahead.kind ≠ .eof := by
        intro hk
        rw [hk, Level.operator?_eof] at hplain
        cases hplain
      obtain ⟨u, d, ha, h⟩ := bind_eq_ok.1 h
      obtain ⟨right, d', hr, h⟩ := bind_eq_ok.1 h
      have htk := took_of_advance hc rfl hne ha
      obtain ⟨vs, htv, hv⟩ := hs (htk.tidy hc) hr
      have htd := htk.trans htv
      have hleft : Spells d'.known (us ++ c.lookahead.kind :: vs)
          (.expr level (build left right).plain) := by
        rw [htd.known, hb]
        exact .operator hplain hl (htk.known ▸ hv)
      obtain ⟨ws, htw, hw⟩ := ih (htd.tidy hc) hleft h
      refine ⟨[c.lookahead.kind] ++ vs ++ ws, htd.trans htw, ?_⟩
      rw [htd.known] at hw
      simpa using hw

theorem chain_sound {level : Level} {operator? : Kind → Option (Expr → Expr → Expr)}
    {operand : Parse Expr} (ho : level.Offers operator?) (hs : SoundAt level.tighter operand)
    (n : Nat) : SoundAt level (operand >>= leftChain operand operator? n) := by
  intro c e c' hc h
  obtain ⟨left, d, hl, h⟩ := bind_eq_ok.1 h
  obtain ⟨ts, ht, hl⟩ := hs hc hl
  have hl' : Spells d.known ts (.expr level left.plain) := ht.known ▸ .tighter hl
  obtain ⟨us, hu, he⟩ := leftChain_sound ho hs n (ht.tidy hc) hl' h
  exact ⟨ts ++ us, ht.trans hu, ht.known ▸ he⟩

theorem leadingChain_sound (level : Level) {k : Kind} {build : Expr → Position → Expr}
    {plain : PlainExpr → PlainExpr} {operand : Parse Expr} (hk : level.leading? k = some plain)
    (hne : k ≠ .eof) (hb : ∀ e pos, (build e pos).plain = plain e.plain)
    (hs : SoundAt level.tighter operand) (n : Nat) :
    SoundAt level (leadingChain k build operand n) := by
  induction n with
  | zero =>
    intro c e c' hc h
    cases h
  | succ n ih =>
    intro c e c' hc h
    rw [leadingChain, here_bind] at h
    obtain ⟨b, d, ha, h⟩ := bind_eq_ok.1 h
    rcases accept_eq_ok hc hne ha with ⟨rfl, htk⟩ | ⟨rfl, rfl, -⟩
    · obtain ⟨inner, d', hi, hp⟩ := bind_eq_ok.1 h
      obtain ⟨rfl, rfl⟩ := pure_eq_ok.1 hp
      obtain ⟨ts, ht, he⟩ := ih (htk.tidy hc) hi
      refine ⟨[k] ++ ts, htk.trans ht, ?_⟩
      rw [hb]
      exact .leading hk (htk.known ▸ he)
    · obtain ⟨ts, ht, he⟩ := hs hc h
      exact ⟨ts, ht, .tighter he⟩

section Levels

variable {whole : Parse Expr} {bound : Nat}

theorem commaList_sound (hs : SoundAt .disjunction whole) (n : Nat) {c c' : Cursor}
    {es : List Expr} (hc : c.Tidy) (h : commaList whole n c = .ok (es, c')) :
    ∃ ts, Took ts c c' ∧ Spells c.known ts (.args (Expr.plainAll es)) := by
  induction n generalizing c es with
  | zero => cases h
  | succ n ih =>
    rw [commaList, sees_bind, sees_bind] at h
    split at h
    · obtain ⟨rfl, rfl⟩ := pure_eq_ok.1 h
      exact ⟨[], .refl _, .noArgs⟩
    · obtain ⟨first, d, hf, h⟩ := bind_eq_ok.1 h
      obtain ⟨ts, ht, hfirst⟩ := hs hc hf
      obtain ⟨b, d', ha, h⟩ := bind_eq_ok.1 h
      rcases accept_eq_ok (ht.tidy hc) (by simp) ha with ⟨rfl, htk⟩ | ⟨rfl, rfl, -⟩
      · obtain ⟨others, d'', hr, hp⟩ := bind_eq_ok.1 h
        obtain ⟨rfl, rfl⟩ := pure_eq_ok.1 hp
        have htd := ht.trans htk
        obtain ⟨us, hu, hothers⟩ := ih (htd.tidy hc) hr
        refine ⟨ts ++ [.mark ','] ++ us, htd.trans hu, ?_⟩
        rw [htd.known] at hothers
        simpa [Expr.plainAll] using Spells.moreArgs hfirst hothers
      · obtain ⟨rfl, rfl⟩ := pure_eq_ok.1 h
        exact ⟨ts, ht, .lastArg hfirst⟩

theorem arguments_sound (hs : SoundAt .disjunction whole) {c c' : Cursor} {es : List Expr}
    (hc : c.Tidy) (h : arguments whole bound c = .ok (es, c')) :
    ∃ ts, Took (ts ++ [.mark ')']) c c' ∧ Spells c.known ts (.args (Expr.plainAll es)) := by
  rw [arguments] at h
  obtain ⟨es', d, hl, h⟩ := bind_eq_ok.1 h
  obtain ⟨u, d', he, hp⟩ := bind_eq_ok.1 h
  obtain ⟨rfl, rfl⟩ := pure_eq_ok.1 hp
  obtain ⟨ts, ht, hes⟩ := commaList_sound hs bound hc hl
  exact ⟨ts, ht.trans (took_of_expect (ht.tidy hc) (by simp) he), hes⟩

/-- A call of a bare name reads nothing more, and means what its name says. -/
theorem bareCall_sound {word : String} {args : List Expr} {pos : Position} {c c' : Cursor}
    {e : Expr} {us : List Kind} (h : bareCall word args pos c = .ok (e, c'))
    (ha : Spells c.known us (.args (Expr.plainAll args))) :
    c' = c ∧
      Spells c.known (.name word :: .mark '(' :: (us ++ [.mark ')'])) (.expr .primary e.plain) := by
  rw [bareCall.eq_def, get_bind] at h
  obtain ⟨q, hq, hrun⟩ := reader_of_run h
  split at hq
  · next cls hcls =>
    subst hq
    obtain ⟨rfl, rfl⟩ := pure_eq_ok.1 hrun
    obtain ⟨hname, hknown⟩ := class?_name hcls
    refine ⟨rfl, ?_⟩
    rw [Expr.plain, hname]
    exact .construct hknown ha
  · next hcls =>
    split at hq
    · next hword =>
      split at hq
      · next arg =>
        subst hq hword
        obtain ⟨rfl, rfl⟩ := pure_eq_ok.1 hrun
        exact ⟨rfl, .stringify (class?_eq_none.1 hcls) ha⟩
      · subst hq
        cases hrun
    · subst hq
      cases hrun

theorem literal_sound {k : Kind} {c c' : Cursor} {e e' : Expr} (hc : c.Tidy)
    (hk : c.lookahead.kind = k) (hne : k ≠ .eof)
    (hs : Spells c.known [k] (.expr .primary e.plain))
    (h : (do advance; return e : Parse Expr) c = .ok (e', c')) :
    ∃ ts, Took ts c c' ∧ Spells c.known ts (.expr .primary e'.plain) := by
  obtain ⟨u, d, ha, hp⟩ := bind_eq_ok.1 h
  obtain ⟨rfl, rfl⟩ := pure_eq_ok.1 hp
  exact ⟨[k], took_of_advance hc hk hne ha, hs⟩

theorem primary_sound (hs : SoundAt .disjunction whole) :
    SoundAt .primary (primary whole bound) := by
  intro c e c' hc h
  rw [primary, here_bind, kind_bind] at h
  obtain ⟨q, hq, h⟩ := reader_of_run h
  split at hq <;> subst hq
  · next value hk => exact literal_sound hc hk (by simp) (.number value) h
  · next content hk => exact literal_sound hc hk (by simp) (.text content) h
  · next hk => exact literal_sound hc hk (by simp) .trueWord h
  · next hk => exact literal_sound hc hk (by simp) .falseWord h
  · next hk => exact literal_sound hc hk (by simp) .noneWord h
  · next hk =>
    obtain ⟨u, d, ha, h⟩ := bind_eq_ok.1 h
    obtain ⟨inner, d', hi, h⟩ := bind_eq_ok.1 h
    obtain ⟨u', d'', hx, hp⟩ := bind_eq_ok.1 h
    obtain ⟨rfl, rfl⟩ := pure_eq_ok.1 hp
    have htk := took_of_advance hc hk (by simp) ha
    obtain ⟨ts, ht, he⟩ := hs (htk.tidy hc) hi
    have htd := htk.trans ht
    refine ⟨_, htd.trans (took_of_expect (htd.tidy hc) (by simp) hx), ?_⟩
    exact .parens (htk.known ▸ he)
  · next word hk =>
    obtain ⟨u, d, ha, h⟩ := bind_eq_ok.1 h
    have htk := took_of_advance hc hk (by simp) ha
    obtain ⟨b, d', hb, h⟩ := bind_eq_ok.1 h
    rcases accept_eq_ok (htk.tidy hc) (by simp) hb with ⟨rfl, htp⟩ | ⟨rfl, rfl, -⟩
    · obtain ⟨args, d'', hargs, h⟩ := bind_eq_ok.1 h
      have htd := htk.trans htp
      obtain ⟨us, hu, hes⟩ := arguments_sound hs (htd.tidy hc) hargs
      have htd' := htd.trans hu
      rw [htd.known, ← htd'.known] at hes
      obtain ⟨rfl, he⟩ := bareCall_sound h hes
      exact ⟨_, htd', htd'.known ▸ he⟩
    · obtain ⟨rfl, rfl⟩ := pure_eq_ok.1 h
      exact ⟨[.name word], htk, .name word⟩
  · cases h

theorem selections_sound (hs : SoundAt .disjunction whole) (n : Nat) {c c' : Cursor} {e e' : Expr}
    {us : List Kind} (hc : c.Tidy) (hl : Spells c.known us (.expr .selection e.plain))
    (h : selections whole bound n e c = .ok (e', c')) :
    ∃ ts, Took ts c c' ∧ Spells c.known (us ++ ts) (.expr .selection e'.plain) := by
  induction n generalizing c e us with
  | zero => cases h
  | succ n ih =>
    rw [selections] at h
    obtain ⟨b, d, ha, h⟩ := bind_eq_ok.1 h
    rcases accept_eq_ok hc (by simp) ha with ⟨rfl, htk⟩ | ⟨rfl, rfl, -⟩
    · obtain ⟨word, d', hw, h⟩ := bind_eq_ok.1 h
      have htw := htk.trans (took_of_name (htk.tidy hc) hw)
      obtain ⟨b', d'', ha', h⟩ := bind_eq_ok.1 h
      rcases accept_eq_ok (htw.tidy hc) (by simp) ha' with ⟨rfl, htp⟩ | ⟨rfl, rfl, -⟩
      · obtain ⟨args, d₂, hargs, h⟩ := bind_eq_ok.1 h
        have htd := htw.trans htp
        obtain ⟨vs, hv, hes⟩ := arguments_sound hs (htd.tidy hc) hargs
        have htv := htd.trans hv
        have hcall : Spells d₂.known
            (us ++ .mark '.' :: .name word :: .mark '(' :: (vs ++ [.mark ')']))
            (.expr .selection (Expr.call e word args e.pos).plain) := by
          rw [htv.known]
          exact .call word hl (htd.known ▸ hes)
        obtain ⟨ws, htws, hres⟩ := ih (htv.tidy hc) hcall h
        refine ⟨_, htv.trans htws, ?_⟩
        rw [htv.known] at hres
        simpa using hres
      · have hfield : Spells d'.known (us ++ [.mark '.', .name word])
            (.expr .selection (e.select word).plain) := by
          rw [htw.known, Expr.plain_select]
          exact .field word hl
        obtain ⟨ws, htws, hres⟩ := ih (htw.tidy hc) hfield h
        refine ⟨_, htw.trans htws, ?_⟩
        rw [htw.known] at hres
        simpa using hres
    · obtain ⟨rfl, rfl⟩ := pure_eq_ok.1 h
      exact ⟨[], .refl _, by simpa using hl⟩

theorem selected_sound (hs : SoundAt .disjunction whole) :
    SoundAt .selection (selected whole bound) := by
  intro c e c' hc h
  obtain ⟨e₀, d, hp, h⟩ := bind_eq_ok.1 h
  obtain ⟨ts, ht, hl⟩ := primary_sound hs hc hp
  have hl' : Spells d.known ts (.expr .selection e₀.plain) := ht.known ▸ .tighter hl
  obtain ⟨us, hu, he⟩ := selections_sound hs bound (ht.tidy hc) hl' h
  exact ⟨ts ++ us, ht.trans hu, ht.known ▸ he⟩

theorem factor_sound (hs : SoundAt .disjunction whole) : SoundAt .factor (factor whole bound) :=
  leadingChain_sound .factor rfl (by simp) (fun _ _ => rfl) (selected_sound hs) bound

theorem sum_sound (hs : SoundAt .disjunction whole) : SoundAt .sum (sum whole bound) :=
  chain_sound offers_sum (chain_sound offers_product (factor_sound hs) bound) bound

theorem comparison_sound (hs : SoundAt .disjunction whole) :
    SoundAt .comparison (comparison whole bound) := by
  intro c e c' hc h
  obtain ⟨left, d, hl, h⟩ := bind_eq_ok.1 h
  obtain ⟨ts, ht, hleft⟩ := sum_sound hs hc hl
  rw [kind_bind] at h
  cases hrel : Parse.relation? d.lookahead.kind with
  | none =>
    rw [hrel] at h
    obtain ⟨rfl, rfl⟩ := pure_eq_ok.1 h
    exact ⟨ts, ht, .tighter hleft⟩
  | some relation =>
    rw [hrel] at h
    have hne : d.lookahead.kind ≠ .eof := by
      intro hk
      rw [hk] at hrel
      cases hrel
    obtain ⟨u, d', ha, h⟩ := bind_eq_ok.1 h
    obtain ⟨right, d'', hr, hp⟩ := bind_eq_ok.1 h
    obtain ⟨rfl, rfl⟩ := pure_eq_ok.1 hp
    have htd := ht.trans (took_of_advance (ht.tidy hc) rfl hne ha)
    obtain ⟨us, hu, hright⟩ := sum_sound hs (htd.tidy hc) hr
    refine ⟨_, htd.trans hu, ?_⟩
    rw [htd.known] at hright
    simpa [Expr.plain] using Spells.compare hrel hleft hright

/-- If whole expressions are read soundly, so are those with more parentheses around them. -/
theorem disjunction_sound (hs : SoundAt .disjunction whole) :
    SoundAt .disjunction (disjunction whole bound) := by
  have hinv : SoundAt .inversion (inversion whole bound) :=
    leadingChain_sound .inversion rfl (by simp) (fun _ _ => rfl) (comparison_sound hs) bound
  exact chain_sound offers_disjunction (chain_sound offers_conjunction hinv bound) bound

end Levels

theorem nested_sound (bound n : Nat) : SoundAt .disjunction (nested bound n) := by
  induction n with
  | zero =>
    intro c e c' hc h
    cases h
  | succ n ih => exact disjunction_sound ih

/-- Every expression that is read is spelled by what was read. -/
theorem expression_sound (bound : Nat) : SoundAt .disjunction (expression bound) :=
  nested_sound bound bound

end Grammar

end Mython
