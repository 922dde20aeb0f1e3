import Mython.Proofs.Program.Parts
import Mython.Proofs.Program.Places
import Mython.Proofs.Program.Pulling
import Mython.Proofs.Program.Resolution

namespace Mython

open Token (Kind)

namespace Code

variable {P : Position → Prop}

/-- All places in a piece of code satisfy a test. -/
def LiesIn (P : Position → Prop) (a : Code) : Prop :=
  ∀ b, a.Contains b → ∀ pos, b.pos? = some pos → P pos

/-- It is enough to look at the piece itself and then at its parts. -/
theorem liesIn_iff {a : Code} :
    a.LiesIn P ↔ (∀ pos, a.pos? = some pos → P pos) ∧ ∀ b ∈ a.parts, b.LiesIn P := by
  constructor
  · intro h
    exact ⟨h a .refl, fun b hb d hd => h d (.head hb hd)⟩
  · rintro ⟨hself, hparts⟩ b hb
    rcases Relation.ReflTransGen.cases_head hb with rfl | ⟨d, hpart, hd⟩
    · exact hself
    · exact hparts d hpart b hd

theorem LiesIn.of_parts {a : Code} {pos : Position} (ha : a.pos? = some pos) (hpos : P pos)
    (hparts : ∀ b ∈ a.parts, b.LiesIn P) : a.LiesIn P := by
  refine liesIn_iff.2 ⟨?_, hparts⟩
  intro other hother
  obtain rfl : pos = other := Option.some.inj (ha.symm.trans hother)
  exact hpos

theorem LiesIn.pos {e : Expr} (h : (expr e).LiesIn P) : P e.pos := h _ .refl _ rfl

theorem liesIn_path {root : String} {fields : List String} {pos : Position} :
    (expr (.path root fields pos)).LiesIn P ↔ P pos :=
  ⟨fun h => h.pos, fun h => .of_parts rfl h (by simp [parts])⟩

/-- A selected field lies where its object does. -/
theorem LiesIn.select {e : Expr} (h : (expr e).LiesIn P) (word : String) :
    (expr (e.select word)).LiesIn P := by
  cases e with
  | path root fields pos => exact liesIn_path.2 h.pos
  | _ => exact .of_parts rfl h.pos (by simpa [Expr.select, parts] using h)

/-- So does an assignment to what an expression names, given the places of the assignment and of
its value. -/
theorem LiesIn.assignment {target value : Expr} {pos : Position} {s : Stmt}
    (h : (expr target).LiesIn P) (hvalue : (expr value).LiesIn P) (hpos : P pos)
    (hs : Parse.assignment? target value pos = some s) : (stmt s).LiesIn P := by
  rw [Parse.assignment?.eq_def] at hs
  split at hs
  · next root fields origin =>
    split at hs <;> cases hs
    · exact .of_parts rfl hpos (by simpa [parts] using hvalue)
    · exact .of_parts rfl hpos (by simpa [parts, liesIn_path] using ⟨h.pos, hvalue⟩)
  · next object name origin =>
    have hobject : (expr object).LiesIn P := (liesIn_iff.1 h).2 _ (by simp [parts])
    cases hs
    exact .of_parts rfl hpos (by simpa [parts] using ⟨hobject, hvalue⟩)
  · cases hs

end Code

namespace Parse

/-- A reader keeps what holds of the cursor, and what it gives satisfies a test. -/
def Yields (I : Cursor → Prop) (p : Parse α) (Q : α → Prop) : Prop :=
  ∀ ⦃c a c'⦄, I c → p c = .ok (a, c') → I c' ∧ Q a

namespace Yields

variable {I : Cursor → Prop} {Q : α → Prop} {R : β → Prop}

theorem pure {a : α} (h : Q a) : Yields I (pure a) Q := by
  intro c b c' hc hrun
  obtain ⟨rfl, rfl⟩ := pure_eq_ok.1 hrun
  exact ⟨hc, h⟩

theorem bind {p : Parse α} {f : α → Parse β} (h : Yields I p Q)
    (hf : ∀ a, Q a → Yields I (f a) R) : Yields I (p >>= f) R := by
  intro c b c' hc hrun
  obtain ⟨a, d, hp, hrest⟩ := bind_eq_ok.1 hrun
  obtain ⟨hd, ha⟩ := h hc hp
  exact hf a ha hd hrest

theorem fail (cause : SyntaxError.Cause) : Yields I (fail cause) Q := by
  rintro c a c' - ⟨⟩

theorem failAt (pos : Position) (cause : SyntaxError.Cause) : Yields I (failAt pos cause) Q := by
  rintro c a c' - ⟨⟩

theorem kind : Yields I kind fun _ => True := by
  rintro c k c' hc ⟨⟩
  exact ⟨hc, trivial⟩

theorem sees (k : Kind) : Yields I (sees k) fun _ => True := by
  rintro c b c' hc ⟨⟩
  exact ⟨hc, trivial⟩

theorem here : Yields I here fun _ => True := by
  rintro c pos c' hc ⟨⟩
  exact ⟨hc, trivial⟩

/-- A reader that goes on in one of two ways. -/
theorem branch {b : Bool} {p p' : Parse α} (h : Yields I p Q) (h' : Yields I p' Q) :
    Yields I (if b = true then p else p') Q := by
  split
  · exact h
  · exact h'

section Reading

variable (hadvance : Yields I advance fun _ => True)

include hadvance

theorem accept (k : Kind) : Yields I (accept k) fun _ => True :=
  (sees k).bind fun _ _ => .branch (hadvance.bind fun _ _ => .pure trivial) (.pure trivial)

theorem expect (k : Kind) : Yields I (expect k) fun _ => True := by
  apply kind.bind
  intro found _
  split
  · exact hadvance
  · exact .fail _

theorem name : Yields I name fun _ => True := by
  apply kind.bind
  intro found _
  split
  · exact hadvance.bind fun _ _ => .pure trivial
  · exact .fail _

theorem commaList {item : Parse α} (h : Yields I item Q) (n : Nat) :
    Yields I (commaList item n) fun as => ∀ a ∈ as, Q a := by
  induction n with
  | zero => exact .fail _
  | succ n ih =>
    apply (sees _).bind
    intro closes _
    apply (sees _).bind
    intro ends _
    apply branch
    · exact .pure (by simp)
    apply h.bind
    intro a ha
    apply (accept hadvance _).bind
    intro more _
    apply branch
    · exact ih.bind fun as has => .pure (by simpa using ⟨ha, has⟩)
    · exact .pure (by simpa using ha)

omit hadvance in
theorem untilDedent {item : Parse α} (h : Yields I item Q) (n : Nat) :
    Yields I (untilDedent item n) fun as => ∀ a ∈ as, Q a := by
  induction n with
  | zero => exact .fail _
  | succ n ih =>
    apply (sees _).bind
    intro closes _
    apply (sees _).bind
    intro ends _
    apply branch
    · exact .pure (by simp)
    apply h.bind
    intro a ha
    exact ih.bind fun as has => .pure (by simpa using ⟨ha, has⟩)

theorem indented {item : Parse α} (h : Yields I item Q) (n : Nat) :
    Yields I (indented item n) fun as => ∀ a ∈ as, Q a := by
  apply (expect hadvance _).bind
  intro _ _
  apply (expect hadvance _).bind
  intro _ _
  apply (expect hadvance _).bind
  intro _ _
  apply (untilDedent h n).bind
  intro as has
  exact (expect hadvance _).bind fun _ _ => .pure has

theorem leftChain {operand : Parse Expr} {operator? : Kind → Option (Expr → Expr → Expr)}
    {Q : Expr → Prop} (h : Yields I operand Q)
    (hop : ∀ k build, operator? k = some build → ∀ l r, Q l → Q r → Q (build l r)) (n : Nat)
    {left : Expr} (hleft : Q left) : Yields I (leftChain operand operator? n left) Q := by
  induction n generalizing left with
  | zero => exact .fail _
  | succ n ih =>
    apply kind.bind
    intro k _
    cases hk : operator? k with
    | none => exact .pure hleft
    | some build =>
      apply hadvance.bind
      intro _ _
      exact h.bind fun right hright => ih (hop k build hk left right hleft hright)

/-- A chain of operators, from its first operand on. -/
theorem level {operand : Parse Expr} {operator? : Kind → Option (Expr → Expr → Expr)}
    {Q : Expr → Prop} (h : Yields I operand Q)
    (hop : ∀ k build, operator? k = some build → ∀ l r, Q l → Q r → Q (build l r)) (n : Nat) :
    Yields I (do Parse.leftChain operand operator? n (← operand)) Q :=
  h.bind fun _ hleft => leftChain hadvance h hop n hleft

end Reading

end Yields

/-- The tokens that are left and the classes completed so far have all their places where a test
says. Only tokens with a text of their own count. -/
structure Origin (P : Position → Prop) (c : Cursor) : Prop where
  tokens : ∀ t ∈ c.tokens, t.kind.isContent = true → P t.pos
  classes : ∀ k ∈ c.classes, (Code.cls k).LiesIn P

/-- The reader of something that lies where a test says. -/
abbrev YieldsIn (P : Position → Prop) (f : α → Code) (p : Parse α) : Prop :=
  Yields (Origin P) p fun a => (f a).LiesIn P

section Origins

variable {P : Position → Prop}

theorem yields_advance : Yields (Origin P) advance fun _ => True := by
  intro c u c' hc h
  have hstep := step_of_advance h
  obtain ⟨t, ts, fault, classes⟩ := c
  refine ⟨?_, trivial⟩
  cases ts with
  | cons v vs =>
    cases hstep
    exact ⟨fun t ht => hc.tokens t (List.mem_cons_of_mem _ ht), hc.classes⟩
  | nil =>
    cases fault with
    | some e => cases hstep
    | none =>
      cases hstep
      exact hc

/-- A reader whose first token has a text of its own, and the place of that token. -/
theorem yields_here_bind {p : Parse α} {f : Position → α → Parse β} {Q : α → Prop} {R : β → Prop}
    (h : Yields (Origin P) p Q)
    (hstart : ∀ ⦃c a c'⦄, p c = .ok (a, c') → c.lookahead.kind.isContent = true)
    (hf : ∀ pos a, P pos → Q a → Yields (Origin P) (f pos a) R) :
    Yields (Origin P) (do let pos ← here; let a ← p; f pos a) R := by
  intro c b c' hc hrun
  rw [here_bind] at hrun
  obtain ⟨a, d, hp, hrest⟩ := bind_eq_ok.1 hrun
  obtain ⟨hd, ha⟩ := h hc hp
  have hpos : P c.lookahead.pos := hc.tokens _ List.mem_cons_self (hstart hp)
  exact hf _ a hpos ha hd hrest

theorem yields_here_expect {f : Position → Parse β} {R : β → Prop} {k : Kind}
    (hk : k.isContent = true) (hf : ∀ pos, P pos → Yields (Origin P) (f pos) R) :
    Yields (Origin P) (do let pos ← here; expect k; f pos) R :=
  yields_here_bind (.expect yields_advance k)
    (fun _ _ _ hrun => by rw [lookahead_of_expect hrun, hk]) fun pos _ hpos _ => hf pos hpos

theorem yields_here_accept {f : Position → Bool → Parse β} {R : β → Prop} {k : Kind}
    (hk : k.isContent = true)
    (hf : ∀ pos b, (b = true → P pos) → Yields (Origin P) (f pos b) R) :
    Yields (Origin P) (do let pos ← here; let b ← accept k; f pos b) R := by
  intro c r c' hc hrun
  rw [here_bind] at hrun
  obtain ⟨b, d, ha, hrest⟩ := bind_eq_ok.1 hrun
  obtain ⟨hd, -⟩ := Yields.accept yields_advance k hc ha
  refine hf _ b ?_ hd hrest
  rintro rfl
  rcases accept_cases ha with ⟨-, hkind⟩ | ⟨hfalse, -⟩
  · exact hc.tokens _ List.mem_cons_self (hkind ▸ hk)
  · cases hfalse

theorem yields_leadingChain {operand : Parse Expr} (h : YieldsIn P .expr operand) {operator : Kind}
    (hop : operator.isContent = true) {build : Expr → Position → Expr}
    (hbuild : ∀ e pos, P pos → (Code.expr e).LiesIn P → (Code.expr (build e pos)).LiesIn P)
    (n : Nat) : YieldsIn P .expr (leadingChain operator build operand n) := by
  induction n with
  | zero => exact .fail _
  | succ n ih =>
    apply yields_here_accept hop
    intro pos b hpos
    cases b with
    | true => exact ih.bind fun e he => .pure (hbuild e pos (hpos rfl) he)
    | false => exact h

theorem yields_bareCall (name : String) {args : List Expr} {pos : Position} (hpos : P pos)
    (hargs : ∀ e ∈ args, (Code.expr e).LiesIn P) : YieldsIn P .expr (bareCall name args pos) := by
  intro c e c' hc hrun
  rw [bareCall_eq, get_bind] at hrun
  cases hcls : c.class? name with
  | some cls =>
    rw [hcls] at hrun
    obtain ⟨rfl, rfl⟩ := pure_eq_ok.1 hrun
    have hclass := hc.classes cls (List.mem_of_find?_eq_some hcls)
    exact ⟨hc, .of_parts rfl hpos (by simpa [Code.parts] using ⟨hclass, hargs⟩)⟩
  | none =>
    rw [hcls, called] at hrun
    split at hrun
    · rcases args with _ | ⟨arg, _ | ⟨_, _⟩⟩
      · cases hrun
      · obtain ⟨rfl, rfl⟩ := pure_eq_ok.1 hrun
        exact ⟨hc, .of_parts rfl hpos (by simpa [Code.parts] using hargs)⟩
      · cases hrun
    · cases hrun

section Levels

variable {whole : Parse Expr} (h : YieldsIn P .expr whole) (bound : Nat)

include h

theorem yields_arguments :
    Yields (Origin P) (arguments whole bound) fun es => ∀ e ∈ es, (Code.expr e).LiesIn P := by
  apply (Yields.commaList yields_advance h bound).bind
  intro es hes
  exact (Yields.expect yields_advance _).bind fun _ _ => .pure hes

theorem yields_primary : YieldsIn P .expr (primary whole bound) := by
  intro c e c' hc hrun
  rw [primary, here_bind, kind_bind] at hrun
  have hliteral : ∀ literal : Expr, literal.pos = c.lookahead.pos → (Code.expr literal).parts = [] →
      c.lookahead.kind.isContent = true →
      YieldsIn P .expr (do advance; return literal : Parse Expr) := by
    intro literal hpos hparts hk
    have hhere : P literal.pos := hpos ▸ hc.tokens _ List.mem_cons_self hk
    exact yields_advance.bind fun _ _ => .pure (.of_parts rfl hhere (by simp [hparts]))
  obtain ⟨q, hq, hrun⟩ := reader_of_run hrun
  split at hq <;> subst hq
  · next hk => exact hliteral _ rfl rfl (by rw [hk]; rfl) hc hrun
  · next hk => exact hliteral _ rfl rfl (by rw [hk]; rfl) hc hrun
  · next hk => exact hliteral _ rfl rfl (by rw [hk]; rfl) hc hrun
  · next hk => exact hliteral _ rfl rfl (by rw [hk]; rfl) hc hrun
  · next hk => exact hliteral _ rfl rfl (by rw [hk]; rfl) hc hrun
  · refine (?_ : YieldsIn P .expr _) hc hrun
    apply yields_advance.bind
    intro _ _
    apply h.bind
    intro e he
    exact (Yields.expect yields_advance _).bind fun _ _ => .pure he
  · next word hk =>
    have hpos : P c.lookahead.pos := hc.tokens _ List.mem_cons_self (by rw [hk]; rfl)
    refine (?_ : YieldsIn P .expr _) hc hrun
    apply yields_advance.bind
    intro _ _
    apply (Yields.accept yields_advance _).bind
    intro opens _
    apply Yields.branch
    · exact (yields_arguments h bound).bind fun es hes => yields_bareCall word hpos hes
    · exact .pure (Code.liesIn_path.2 hpos)
  · cases hrun

theorem yields_selections (n : Nat) {e : Expr} (he : (Code.expr e).LiesIn P) :
    YieldsIn P .expr (selections whole bound n e) := by
  induction n generalizing e with
  | zero => exact .fail _
  | succ n ih =>
    apply (Yields.accept yields_advance _).bind
    intro dot _
    apply Yields.branch
    · apply (Yields.name yields_advance).bind
      intro word _
      apply (Yields.accept yields_advance _).bind
      intro opens _
      apply Yields.branch
      · apply (yields_arguments h bound).bind
        intro es hes
        exact ih (.of_parts rfl he.pos (by simpa [Code.parts] using ⟨he, hes⟩))
      · exact ih (he.select word)
    · exact .pure he

theorem yields_factor : YieldsIn P .expr (factor whole bound) := by
  have hselected : YieldsIn P .expr (selected whole bound) :=
    (yields_primary h bound).bind fun _ he => yields_selections h bound bound he
  apply yields_leadingChain hselected rfl
  intro e pos hpos he
  exact .of_parts rfl hpos (by simpa [Code.parts] using he)

theorem yields_sum : YieldsIn P .expr (sum whole bound) := by
  apply Yields.level yields_advance
  · apply Yields.level yields_advance (yields_factor h bound)
    intro k build hk l r hl hr
    rw [productOperator?.eq_def] at hk
    split at hk <;> cases hk <;> exact .of_parts rfl hl.pos (by simpa [Code.parts] using ⟨hl, hr⟩)
  · intro k build hk l r hl hr
    rw [sumOperator?.eq_def] at hk
    split at hk <;> cases hk <;> exact .of_parts rfl hl.pos (by simpa [Code.parts] using ⟨hl, hr⟩)

theorem yields_comparison : YieldsIn P .expr (comparison whole bound) := by
  apply (yields_sum h bound).bind
  intro left hleft
  apply Yields.kind.bind
  intro k _
  cases relation? k with
  | none => exact .pure hleft
  | some relation =>
    apply yields_advance.bind
    intro _ _
    apply (yields_sum h bound).bind
    intro right hright
    exact .pure (.of_parts rfl hleft.pos (by simpa [Code.parts] using ⟨hleft, hright⟩))

theorem yields_disjunction : YieldsIn P .expr (disjunction whole bound) := by
  have hinversion : YieldsIn P .expr (inversion whole bound) := by
    apply yields_leadingChain (yields_comparison h bound) rfl
    intro e pos hpos he
    exact .of_parts rfl hpos (by simpa [Code.parts] using he)
  apply Yields.level yields_advance
  · apply Yields.level yields_advance hinversion
    intro k build hk l r hl hr
    rw [conjOperator?.eq_def] at hk
    split at hk <;> cases hk
    exact .of_parts rfl hl.pos (by simpa [Code.parts] using ⟨hl, hr⟩)
  · intro k build hk l r hl hr
    rw [disjOperator?.eq_def] at hk
    split at hk <;> cases hk
    exact .of_parts rfl hl.pos (by simpa [Code.parts] using ⟨hl, hr⟩)

end Levels

/-- An expression lies where the tokens do of which it is read. -/
theorem yields_expression (bound : Nat) : YieldsIn P .expr (expression bound) := by
  have hnested : ∀ n, YieldsIn P .expr (nested bound n) := by
    intro n
    induction n with
    | zero => exact .fail _
    | succ n ih => exact yields_disjunction ih bound
  exact hnested bound

section Forms

variable {inner : Parse Stmt} (h : YieldsIn P .stmt inner) (bound : Nat)

section Blocks

include h

theorem yields_block :
    Yields (Origin P) (block inner bound) fun ss => ∀ s ∈ ss, (Code.stmt s).LiesIn P :=
  Yields.indented yields_advance h bound

theorem yields_method : YieldsIn P .method (method inner bound) := by
  apply (Yields.expect yields_advance _).bind
  intro _ _
  apply (Yields.name yields_advance).bind
  intro word _
  apply (Yields.expect yields_advance _).bind
  intro _ _
  apply (Yields.commaList yields_advance (Yields.name yields_advance) bound).bind
  intro params _
  apply (Yields.expect yields_advance _).bind
  intro _ _
  apply (yields_block h bound).bind
  intro body hbody
  exact .pure (Code.liesIn_iff.2 ⟨by rintro pos ⟨⟩, by simpa [Code.parts] using hbody⟩)

end Blocks

theorem yields_parent :
    Yields (Origin P) parent fun k => ∀ cls ∈ k, (Code.cls cls).LiesIn P := by
  apply (Yields.accept yields_advance _).bind
  intro opens _
  apply Yields.branch
  · apply Yields.here.bind
    intro pos _
    apply (Yields.name yields_advance).bind
    intro word _
    apply (Yields.expect yields_advance _).bind
    intro _ _ c k c' hc hrun
    rw [get_bind] at hrun
    cases hcls : c.class? word with
    | none =>
      simp only [hcls] at hrun
      cases hrun
    | some cls =>
      simp only [hcls] at hrun
      obtain ⟨rfl, rfl⟩ := pure_eq_ok.1 hrun
      exact ⟨hc, by simpa using hc.classes cls (List.mem_of_find?_eq_some hcls)⟩
  · exact .pure (by simp)

include h in
theorem yields_classDefinition : YieldsIn P .stmt (classDefinition inner bound) := by
  rw [classDefinition_eq]
  apply yields_here_expect rfl
  intro pos hpos
  apply (Yields.name yields_advance).bind
  intro word _
  apply yields_parent.bind
  intro parent hparent
  apply (Yields.indented yields_advance (yields_method h bound) bound).bind
  intro methods hmethods
  have hclass : (Code.cls ⟨word, methods, parent⟩).LiesIn P := by
    refine Code.liesIn_iff.2 ⟨by rintro pos ⟨⟩, ?_⟩
    intro b hb
    rcases List.mem_append.1 hb with hb | hb
    · obtain ⟨m, hm, rfl⟩ := List.mem_map.1 hb
      exact hmethods m hm
    · obtain ⟨k, hk, rfl⟩ := List.mem_map.1 hb
      exact hparent k (Option.mem_toList.1 hk)
  have hlearn : Yields (Origin P)
      (modify fun c => { c with classes := ⟨word, methods, parent⟩ :: c.classes })
      fun _ : Unit => True := by
    rintro c u c' hc ⟨⟩
    exact ⟨⟨hc.tokens, by simpa using ⟨hclass, hc.classes⟩⟩, trivial⟩
  exact hlearn.bind fun _ _ => .pure (.of_parts rfl hpos (by simpa [Code.parts] using hclass))

include h in
theorem yields_conditional : YieldsIn P .stmt (conditional inner bound) := by
  apply yields_here_expect rfl
  intro pos hpos
  apply (yields_expression bound).bind
  intro condition hcondition
  apply (yields_block h bound).bind
  intro body hbody
  apply (Yields.accept yields_advance _).bind
  intro more _
  apply Yields.branch
  · apply (yields_block h bound).bind
    intro other hother
    refine .pure (.of_parts rfl hpos ?_)
    simp only [Code.parts, List.mem_cons, List.map_append, List.mem_append, List.mem_map]
    rintro _ (rfl | ⟨s, hs, rfl⟩ | ⟨s, hs, rfl⟩)
    · exact hcondition
    · exact hbody s hs
    · exact hother s hs
  · exact .pure (.of_parts rfl hpos (by simpa [Code.parts] using ⟨hcondition, hbody⟩))

theorem yields_returning : YieldsIn P .stmt (returning bound) := by
  apply yields_here_expect rfl
  intro pos hpos
  apply (Yields.sees _).bind
  intro ends _
  apply Yields.branch
  · exact .pure (.of_parts rfl hpos (by simp [Code.parts]))
  · apply (yields_expression bound).bind
    intro value hvalue
    exact .pure (.of_parts rfl hpos (by simpa [Code.parts] using hvalue))

theorem yields_printRest (n : Nat) :
    Yields (Origin P) (printRest bound n) fun es => ∀ e ∈ es, (Code.expr e).LiesIn P := by
  induction n with
  | zero => exact .fail _
  | succ n ih =>
    apply (Yields.accept yields_advance _).bind
    intro more _
    apply Yields.branch
    · apply (yields_expression bound).bind
      intro e he
      exact ih.bind fun es hes => .pure (by simpa using ⟨he, hes⟩)
    · exact .pure (by simp)

theorem yields_printing : YieldsIn P .stmt (printing bound) := by
  apply yields_here_expect rfl
  intro pos hpos
  apply (Yields.sees _).bind
  intro ends _
  apply Yields.branch
  · exact .pure (.of_parts rfl hpos (by simp [Code.parts]))
  · apply (yields_expression bound).bind
    intro e he
    apply (yields_printRest bound bound).bind
    intro es hes
    exact .pure (.of_parts rfl hpos (by simpa [Code.parts] using ⟨he, hes⟩))

theorem yields_simple : YieldsIn P .stmt (simple bound) := by
  apply yields_here_bind (yields_expression bound)
    fun _ _ _ hrun => (placed_expression bound hrun).head_content
  intro pos target hpos htarget
  apply Yields.here.bind
  intro sign _
  apply (Yields.accept yields_advance _).bind
  intro assigns _
  apply Yields.branch
  · apply (yields_expression bound).bind
    intro value hvalue
    cases hs : assignment? target value pos with
    | none => exact .failAt _ _
    | some s => exact .pure (htarget.assignment hvalue hpos hs)
  · exact .pure (.of_parts rfl htarget.pos (by simpa [Code.parts] using htarget))

theorem yields_ended {p : Parse Stmt} (hp : YieldsIn P .stmt p) : YieldsIn P .stmt (ended p) :=
  hp.bind fun _ hs => (Yields.expect yields_advance _).bind fun _ _ => .pure hs

include h in
theorem yields_anyStatement : YieldsIn P .stmt (anyStatement inner bound) := by
  apply Yields.kind.bind
  intro k _
  split
  · exact yields_classDefinition h bound
  · exact yields_conditional h bound
  · exact yields_ended (yields_returning bound)
  · exact yields_ended (yields_printing bound)
  · exact yields_ended (yields_simple bound)

end Forms

theorem yields_statement (bound : Nat) : YieldsIn P .stmt (statement bound) := by
  have hnested : ∀ n, YieldsIn P .stmt (nestedStatement bound n) := by
    intro n
    induction n with
    | zero => exact .fail _
    | succ n ih => exact yields_anyStatement ih bound
  exact hnested bound

theorem yields_statements (bound n : Nat) :
    Yields (Origin P) (statements bound n) fun ss => ∀ s ∈ ss, (Code.stmt s).LiesIn P := by
  induction n with
  | zero => exact .fail _
  | succ n ih =>
    apply Yields.kind.bind
    intro k _
    split
    · exact .pure (by simp)
    · exact yields_advance.bind fun _ _ => ih
    · apply (yields_statement bound).bind
      intro s hs
      exact ih.bind fun ss hss => .pure (by simpa using ⟨hs, hss⟩)

end Origins

end Parse

/-- A token of a text that has a text of its own stands at a place. -/
def ContentAt (source : String) (pos : Position) : Prop :=
  ∃ ts t, tokenize source = .ok ts ∧ t ∈ ts ∧ t.kind.isContent = true ∧ t.pos = pos

/-- Every place in a program is that of a token of its text, and not of a token of layout. -/
theorem Parse.contentAt_of_contains {source : String} {p : Program}
    (h : parse source = .ok p) {node : Code} (hnode : p.Contains node) {pos : Position}
    (hpos : node.pos? = some pos) : ContentAt source pos := by
  obtain ⟨ts, hts⟩ := tokenize_of_parse h
  obtain ⟨c, c', hc, hrun⟩ := parse_eq_ok.1 h
  obtain ⟨htokens, hclasses⟩ := Cursor.tokens_ofStream hc
  have hstream : (TokenStream.ofSource source).tokens = ts := by
    rw [TokenStream.tokenize_eq_ok.1 hts]
  have horigin : Origin (ContentAt source) c := by
    constructor
    · intro t ht hk
      rw [htokens, hstream] at ht
      exact ⟨ts, t, hts, ht, hk, rfl⟩
    · intro k hk
      rw [hclasses] at hk
      cases hk
  obtain ⟨s, hs, hcontains⟩ := hnode
  exact (yields_statements _ _ horigin hrun).2 s hs node hcontains pos hpos

end Mython
