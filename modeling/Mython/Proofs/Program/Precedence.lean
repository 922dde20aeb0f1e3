import Mython.Proofs.Program.ExpressionSound

namespace Mython

open Token (Kind)
open Parse Cursor

namespace Grammar

namespace Level

/-- How far down a level is. -/
def rank : Level → Nat
  | disjunction => 0
  | conjunction => 1
  | inversion => 2
  | comparison => 3
  | sum => 4
  | product => 5
  | factor => 6
  | selection => 7
  | primary => 8

/-- Whether an expression of a level can begin with a token. -/
def opens (level : Level) : Kind → Bool
  | .number _ | .text _ | .name _ | .mark '(' => true
  | .keyword .trueWord | .keyword .falseWord | .keyword .noneWord => true
  | .mark '-' => level.rank ≤ factor.rank
  | .keyword .notWord => level.rank ≤ inversion.rank
  | _ => false

/-- The level at which an expression is continued by a token. -/
def continuing? : Kind → Option Level
  | .keyword .orWord => some disjunction
  | .keyword .andWord => some conjunction
  | .equal | .notEqual | .atMost | .atLeast | .mark '<' | .mark '>' => some comparison
  | .mark '+' | .mark '-' => some sum
  | .mark '*' | .mark '/' => some product
  | .mark '.' => some selection
  | .mark '(' => some primary
  | _ => none

/-- A token ends every expression of a level: if it continues one, then at a looser level. -/
def Ends (level : Level) (k : Kind) : Prop :=
  ∀ l, continuing? k = some l → l.rank < level.rank

/-- The levels that are loops over the level below. -/
def isChain : Level → Bool
  | disjunction | conjunction | sum | product | selection => true
  | inversion | comparison | factor | primary => false

/-- A token ends what a level reads before it goes on. -/
def Hands (level : Level) (k : Kind) : Prop :=
  (if level.isChain then level.tighter else level).Ends k

theorem rank_le_tighter (level : Level) : level.rank ≤ level.tighter.rank := by
  cases level <;> decide

theorem Ends.tighter {level : Level} {k : Kind} (h : level.Ends k) : level.tighter.Ends k :=
  fun l hl => Nat.lt_of_lt_of_le (h l hl) level.rank_le_tighter

theorem Ends.hands {level : Level} {k : Kind} (h : level.Ends k) : level.Hands k := by
  rw [Hands]
  split
  · exact h.tighter
  · exact h

theorem ends_of_none {k : Kind} (h : continuing? k = none) (level : Level) : level.Ends k := by
  intro l hl
  rw [h] at hl
  cases hl

theorem opens_of_tighter {level : Level} {k : Kind} (h : level.tighter.opens k = true) :
    level.opens k = true := by
  have hrank := level.rank_le_tighter
  rw [opens.eq_def] at h ⊢
  split at h <;> simp_all <;> omega

theorem continuing?_operator {level : Level} {k : Kind} {plain : PlainExpr → PlainExpr → PlainExpr}
    (h : level.operator? k = some plain) : continuing? k = some level := by
  rw [operator?.eq_def] at h
  split at h <;> first | rfl | cases h

theorem continuing?_relation {k : Kind} {relation : Relation} (h : relation? k = some relation) :
    continuing? k = some comparison := by
  rw [relation?.eq_def] at h
  split at h <;> first | rfl | cases h

theorem opens_leading {level : Level} {k : Kind} {plain : PlainExpr → PlainExpr}
    (h : level.leading? k = some plain) :
    level.opens k = true ∧ level.tighter.opens k = false ∧ level.isChain = false := by
  rw [leading?.eq_def] at h
  split at h
  · decide
  · decide
  · cases h

theorem ends_of_operator {level : Level} {k : Kind} {plain : PlainExpr → PlainExpr → PlainExpr}
    (h : level.operator? k = some plain) : level.tighter.Ends k := by
  intro l hl
  obtain rfl : level = l := Option.some.inj ((continuing?_operator h).symm.trans hl)
  cases level with
  | primary => cases k <;> cases h
  | _ => decide

end Level

/-- What is known of the first token of a phrase. -/
def Phrase.Opens (ts : List Kind) : Phrase → Prop
  | .expr level _ => ∃ k ks, ts = k :: ks ∧ level.opens k = true
  | .args _ => True

theorem Spells.opens {known : List String} {ts : List Kind} {phrase : Phrase}
    (h : Spells known ts phrase) : phrase.Opens ts := by
  induction h with
  | tighter _ ih =>
    obtain ⟨k, ks, rfl, hk⟩ := ih
    exact ⟨k, ks, rfl, Level.opens_of_tighter hk⟩
  | operator _ _ _ ih _ =>
    obtain ⟨k, ks, rfl, hk⟩ := ih
    exact ⟨k, _, rfl, hk⟩
  | leading hk _ _ => exact ⟨_, _, rfl, (Level.opens_leading hk).1⟩
  | compare _ _ _ ih _ =>
    obtain ⟨k, ks, rfl, hk⟩ := ih
    exact ⟨k, _, rfl, Level.opens_of_tighter hk⟩
  | field _ _ ih =>
    obtain ⟨k, ks, rfl, hk⟩ := ih
    exact ⟨k, _, rfl, hk⟩
  | call _ _ _ ih _ =>
    obtain ⟨k, ks, rfl, hk⟩ := ih
    exact ⟨k, _, rfl, hk⟩
  | noArgs => trivial
  | lastArg => trivial
  | moreArgs => trivial
  | _ => exact ⟨_, _, rfl, rfl⟩

section Readers

variable (whole : Parse Expr) (bound : Nat)

/-- The reader of a level, with a bound of its own for its loop. -/
def Level.reader : Level → Nat → Parse Expr
  | disjunction, n =>
    Parse.conjunction whole bound >>= leftChain (Parse.conjunction whole bound) disjOperator? n
  | conjunction, n =>
    Parse.inversion whole bound >>= leftChain (Parse.inversion whole bound) conjOperator? n
  | inversion, n => leadingChain (.keyword .notWord) .not (Parse.comparison whole bound) n
  | comparison, _ => Parse.comparison whole bound
  | sum, n => Parse.product whole bound >>= leftChain (Parse.product whole bound) sumOperator? n
  | product, n =>
    Parse.factor whole bound >>= leftChain (Parse.factor whole bound) productOperator? n
  | factor, n => leadingChain (.mark '-') .negate (selected whole bound) n
  | selection, n => Parse.primary whole bound >>= selections whole bound n
  | primary, _ => Parse.primary whole bound

/-- How the reader of a level goes on from what it has read. -/
def Level.goOn : Level → Nat → Expr → Parse Expr
  | disjunction, n => leftChain (Parse.conjunction whole bound) disjOperator? n
  | conjunction, n => leftChain (Parse.inversion whole bound) conjOperator? n
  | sum, n => leftChain (Parse.product whole bound) sumOperator? n
  | product, n => leftChain (Parse.factor whole bound) productOperator? n
  | selection, n => selections whole bound n
  | inversion, _ | comparison, _ | factor, _ | primary, _ => pure

variable {whole bound}

/-- A loop reads the level below and goes on from there. -/
theorem Level.reader_of_isChain {level : Level} (h : level.isChain = true) (n : Nat) :
    level.reader whole bound n =
      level.tighter.reader whole bound bound >>= level.goOn whole bound n := by
  cases level <;> first | rfl | cases h

theorem leftChain_of_none {level : Level} {operator? : Kind → Option (Expr → Expr → Expr)}
    (ho : level.Offers operator?) {operand : Parse Expr} {n : Nat} {left : Expr} {c : Cursor}
    (h : level.operator? c.lookahead.kind = none) :
    leftChain operand operator? (n + 1) left c = .ok (left, c) := by
  have hrel := ho c.lookahead.kind
  rw [h] at hrel
  rw [leftChain, kind_bind]
  generalize operator? c.lookahead.kind = found at hrel
  cases hrel
  rfl

theorem Level.goOn_of_ends {level : Level} {n : Nat} {e : Expr} {c : Cursor} (hn : 0 < n)
    (h : level.Ends c.lookahead.kind) : level.goOn whole bound n e c = .ok (e, c) := by
  obtain ⟨n, rfl⟩ := Nat.exists_eq_succ_of_ne_zero hn.ne'
  have hop : level.operator? c.lookahead.kind = none := by
    cases hfound : level.operator? c.lookahead.kind with
    | none => rfl
    | some plain => exact absurd (h level (continuing?_operator hfound)) (Nat.lt_irrefl _)
  cases level with
  | disjunction => exact leftChain_of_none offers_disjunction hop
  | conjunction => exact leftChain_of_none offers_conjunction hop
  | sum => exact leftChain_of_none offers_sum hop
  | product => exact leftChain_of_none offers_product hop
  | selection =>
    have hne : c.lookahead.kind ≠ .mark '.' := by
      intro hk
      rw [hk] at h
      exact absurd (h .selection rfl) (Nat.lt_irrefl _)
    rw [Level.goOn, selections, bind_of_ok (accept_of_ne rfl hne)]
    rfl
  | _ => rfl

theorem leftChain_of_some {level : Level} {operator? : Kind → Option (Expr → Expr → Expr)}
    (ho : level.Offers operator?) {k : Kind} {plain : PlainExpr → PlainExpr → PlainExpr}
    (hk : level.operator? k = some plain) :
    ∃ build : Expr → Expr → Expr, (∀ l r, (build l r).plain = plain l.plain r.plain) ∧
      ∀ (operand : Parse Expr) (n : Nat) (left : Expr) (c : Cursor), c.lookahead.kind = k →
        leftChain operand operator? (n + 1) left c = (do
          advance
          let right ← operand
          leftChain operand operator? n (build left right) : Parse Expr) c := by
  have hrel := ho k
  rw [hk] at hrel
  generalize hbuild : operator? k = found at hrel
  cases hrel with
  | @some build _ hb =>
    refine ⟨build, hb, fun operand n left c hc => ?_⟩
    rw [leftChain, kind_bind, hc, hbuild]

theorem Level.goOn_operator {level : Level} {k : Kind} {plain : PlainExpr → PlainExpr → PlainExpr}
    (hk : level.operator? k = some plain) :
    ∃ build : Expr → Expr → Expr, (∀ l r, (build l r).plain = plain l.plain r.plain) ∧
      ∀ (n : Nat) (left : Expr) (c : Cursor), c.lookahead.kind = k →
        level.goOn whole bound (n + 1) left c = (do
          advance
          let right ← level.tighter.reader whole bound bound
          level.goOn whole bound n (build left right) : Parse Expr) c := by
  cases level with
  | disjunction =>
    obtain ⟨build, hb, hstep⟩ := leftChain_of_some offers_disjunction hk
    exact ⟨build, hb, hstep _⟩
  | conjunction =>
    obtain ⟨build, hb, hstep⟩ := leftChain_of_some offers_conjunction hk
    exact ⟨build, hb, hstep _⟩
  | sum =>
    obtain ⟨build, hb, hstep⟩ := leftChain_of_some offers_sum hk
    exact ⟨build, hb, hstep _⟩
  | product =>
    obtain ⟨build, hb, hstep⟩ := leftChain_of_some offers_product hk
    exact ⟨build, hb, hstep _⟩
  | _ => cases k <;> cases hk

/-- A level with leading operators reads the level below if none of them is there. -/
theorem Level.reader_of_leading {level : Level} {k : Kind} {plain : PlainExpr → PlainExpr}
    (hk : level.leading? k = some plain) :
    ∃ build : Expr → Position → Expr, (∀ e pos, (build e pos).plain = plain e.plain) ∧
      ∀ n, level.reader whole bound n =
        leadingChain k build (level.tighter.reader whole bound bound) n := by
  rw [leading?.eq_def] at hk
  split at hk
  · cases hk
    exact ⟨.not, fun _ _ => rfl, fun _ => rfl⟩
  · cases hk
    exact ⟨.negate, fun _ _ => rfl, fun _ => rfl⟩
  · cases hk

end Readers

end Grammar

end Mython
