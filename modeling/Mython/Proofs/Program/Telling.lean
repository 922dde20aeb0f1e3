import Mython.Proofs.Program.Account

namespace Mython

open Token (Kind)

theorem Expr.mentions_select (e : Expr) (word : String) :
    (e.select word).mentions = e.mentions := by
  cases e <;> rfl

namespace Parse

theorem mentions_assignment {target value : Expr} {pos : Position} {s : Stmt}
    (h : assignment? target value pos = some s) :
    s.mentions = target.mentions ++ value.mentions := by
  rw [assignment?.eq_def] at h
  split at h
  · split at h <;> cases h <;> rfl
  · cases h
    rfl
  · cases h

/-- Operators that mention what their operands do. -/
def Joining (operator? : Kind → Option (Expr → Expr → Expr)) : Prop :=
  ∀ k build, operator? k = some build → ∀ l r, (build l r).mentions = l.mentions ++ r.mentions

theorem joining_product : Joining productOperator? := by
  intro k build hk
  rw [productOperator?.eq_def] at hk
  split at hk <;> cases hk <;> exact fun _ _ => rfl

theorem joining_sum : Joining sumOperator? := by
  intro k build hk
  rw [sumOperator?.eq_def] at hk
  split at hk <;> cases hk <;> exact fun _ _ => rfl

theorem joining_conj : Joining conjOperator? := by
  intro k build hk
  rw [conjOperator?.eq_def] at hk
  split at hk <;> cases hk
  exact fun _ _ => rfl

theorem joining_disj : Joining disjOperator? := by
  intro k build hk
  rw [disjOperator?.eq_def] at hk
  split at hk <;> cases hk
  exact fun _ _ => rfl

/-- Reads a name, and what is called by it if a parenthesis follows. -/
def naming (list : Parse (List Expr)) : Parse Expr := do
  let pos ← here
  let word ← name
  if ← accept (.mark '(') then
    let args ← list
    expect (.mark ')')
    bareCall word args pos
  else
    return .path word [] pos

theorem primary_eq (whole : Parse Expr) (bound : Nat) : primary whole bound = (do
    let pos ← here
    match ← kind with
    | .number value =>
      advance
      return .number value pos
    | .text content =>
      advance
      return .text content pos
    | .keyword .trueWord =>
      advance
      return .truth true pos
    | .keyword .falseWord =>
      advance
      return .truth false pos
    | .keyword .noneWord =>
      advance
      return .none pos
    | .mark '(' =>
      advance
      let e ← whole
      expect (.mark ')')
      return e
    | .name _ => naming (commaList whole bound)
    | found => fail (.expectedExpression found)) := by
  funext c
  rw [primary, here_bind, here_bind, kind_bind, kind_bind]
  obtain ⟨⟨found, pos⟩, ahead, fault, classes⟩ := c
  cases found with
  | name word =>
    have hname : ∀ (k : String → Parse Expr) (c : Cursor), c.lookahead.kind = .name word →
        (name >>= k) c = (advance >>= fun _ => k word) c := by
      intro k c hc
      rw [name, bind_assoc, kind_bind, hc, bind_assoc]
      rfl
    simp only [naming, here_bind]
    rw [hname _ _ rfl]
    simp only [arguments, bind_assoc, pure_bind]
  | mark m =>
    by_cases hm : m = '('
    · subst hm
      rfl
    · simp [hm]
  | keyword k => cases k <;> rfl
  | _ => rfl

/-- Reads a class behind its name, up to the end of its block. -/
def classBody (inner : Parse Stmt) (bound : Nat) : Parse (Option Class × List Method) := do
  let parent ← parent
  expect (.mark ':')
  expect .newline
  expect .indent
  let methods ← untilDedent (method inner bound) bound
  return (parent, methods)

/-- Reads a class, given how to read what stands behind its name. -/
def defining (body : Parse (Option Class × List Method)) : Parse Stmt := do
  let pos ← here
  expect (.keyword .classWord)
  let word ← name
  let x ← body
  expect .dedent
  complete ⟨word, x.2, x.1⟩
  return .define ⟨word, x.2, x.1⟩ pos

theorem classDefinition_eq_defining (inner : Parse Stmt) (bound : Nat) :
    classDefinition inner bound = defining (classBody inner bound) := by
  simp only [classDefinition, defining, classBody, complete, bind_assoc, pure_bind]

namespace Account

variable {whole operand : Parse Expr} {list : Parse (List Expr)} {bound : Nat}

/-- The steps of reading a name and what is called by it. -/
def namingSteps (h : Steps list) : Steps (Parse.naming list) :=
  (here (w := [])).steps.bind fun pos => (name (w := [])).steps.bind fun word =>
    (accept (w := []) (.mark '(')).steps.bind fun
      | true => h.bind fun args => (expect (w := []) (.mark ')')).steps.bind fun _ =>
          .call word args pos
      | false => (pure (w := []) (q := Expr.mentions) (Expr.path word [] pos) rfl).steps

theorem namingSteps_spells {h : Steps list} (hs : h.Spells) : (namingSteps h).Spells := by
  intro c hc
  refine spellsAt_here hc (spellsAt_name hc fun word c₁ hc₁ => ?_)
  refine spellsAt_accept hc₁ (by simp) (fun c₂ hc₂ => ?_) fun _ _ _ => .nil
  refine .bind hc₂ (hs.at hc₂ _) fun args c₃ _ hc₃ => spellsAt_expect hc₃ (by simp) fun _ c₄ _ => ?_
  exact .singleton ⟨[], h.trace c₂, c₁.lookahead.pos, c₃.lookahead.pos, by simp⟩

theorem callAnswer_mentions {word : String} {args : List Expr} {pos : Position}
    {found : Option Class} {e : Expr} (h : Event.callAnswer word args pos found = .ok e) :
    e.mentions = Expr.mentionsAll args ++ [.makes e] := by
  rw [Event.callAnswer.eq_def] at h
  split at h
  · cases h
    rfl
  · split at h
    · split at h
      · cases h
        simp [Expr.mentions, Expr.mentionsAll]
      · cases h
    · cases h

theorem call_mentions (word : String) (args : List Expr) (pos : Position) :
    (Steps.call word args pos).Mentions (Expr.mentionsAll args) Expr.mentions := by
  intro c e c' hrun
  rw [Steps.trace, hrun]
  rw [bareCall_answer] at hrun
  cases hanswer : Event.callAnswer word args pos (c.class? word) with
  | error err =>
    rw [hanswer] at hrun
    cases hrun
  | ok found =>
    rw [hanswer] at hrun
    cases hrun
    exact (callAnswer_mentions hanswer).symm

theorem namingSteps_mentions {h : Steps list} (hm : h.Mentions [] Expr.mentionsAll) :
    (namingSteps h).Mentions [] Expr.mentions := by
  refine here.mentions.bind fun pos => name.mentions.bind fun word =>
    (accept _).mentions.bind fun opened => ?_
  cases opened with
  | true => exact hm.bind fun args => (expect _).mentions.bind fun _ => call_mentions word args pos
  | false => exact (pure _ rfl).mentions

/-- Reads a name and what is called by it. -/
def naming (h : Account [] list Expr.mentionsAll) :
    Account [] (Parse.naming list) Expr.mentions where
  steps := namingSteps h.steps
  spells := namingSteps_spells h.spells
  mentions := namingSteps_mentions h.mentions

def exprs (h : Account [] whole Expr.mentions) (n : Nat) :
    Account [] (Parse.commaList whole n) Expr.mentionsAll :=
  (h.commaList n).to_eq fun es => (Expr.mentionsAll_eq_flatMap es).symm

def arguments (h : Account [] whole Expr.mentions) :
    Account [] (Parse.arguments whole bound) Expr.mentionsAll :=
  (h.exprs bound).bind fun args => (expect (.mark ')')).bind fun _ => pure args rfl

/-- Reads a token that stands for an expression. -/
def literal (e : Expr) (he : [] = e.mentions) :
    Account [] (do Parse.advance; return e) Expr.mentions :=
  advance.bind fun _ => pure e he

def primary (h : Account [] whole Expr.mentions) :
    Account [] (Parse.primary whole bound) Expr.mentions :=
  (here.bind fun pos => kind.bind fun
    | .number value => literal (.number value pos) rfl
    | .text content => literal (.text content pos) rfl
    | .keyword .trueWord => literal (.truth true pos) rfl
    | .keyword .falseWord => literal (.truth false pos) rfl
    | .keyword .noneWord => literal (.none pos) rfl
    | .mark c =>
      (branch (c = '(')
        (advance.bind fun _ => h.bind fun e => (expect (.mark ')')).bind fun _ => pure e rfl)
        (fail (.expectedExpression (.mark c)))).of_eq (by
          by_cases hc : c = '('
          · subst hc
            rfl
          · simp [hc])
    | .name _ => naming (h.exprs bound)
    | .keyword .classWord | .keyword .defWord | .keyword .returnWord | .keyword .ifWord
    | .keyword .elseWord | .keyword .printWord | .keyword .andWord | .keyword .orWord
    | .keyword .notWord | .equal | .notEqual | .atMost | .atLeast | .newline | .indent | .dedent
    | .eof => fail _).of_eq (primary_eq whole bound)

def selections (h : Account [] whole Expr.mentions) :
    ∀ n e, Account e.mentions (Parse.selections whole bound n e) Expr.mentions
  | 0, _ => fail _
  | n + 1, e =>
    (accept (.mark '.')).bind fun dot => branch (dot = true)
      (name.bind fun word => (accept (.mark '(')).bind fun opened => branch (opened = true)
        ((h.arguments.after e.mentions).bind fun args => h.selections n (.call e word args e.pos))
        ((h.selections n (e.select word)).from_eq (e.mentions_select word).symm))
      (pure e rfl)

def selected (h : Account [] whole Expr.mentions) :
    Account [] (Parse.selected whole bound) Expr.mentions :=
  h.primary.bind fun e => h.selections bound e

/-- Reads any number of a leading operator, if it mentions what its operand does. -/
def leadingChain {operator : Kind} {build : Expr → Position → Expr}
    (hop : ∀ e pos, (build e pos).mentions = e.mentions) (h : Account [] operand Expr.mentions) :
    ∀ n, Account [] (Parse.leadingChain operator build operand n) Expr.mentions
  | 0 => fail _
  | n + 1 =>
    here.bind fun pos => (accept operator).bind fun more => branch (more = true)
      ((h.leadingChain hop n).bind fun e => pure (build e pos) (hop e pos).symm) h

/-- Reads operators and operands. -/
def leftChain {operator? : Kind → Option (Expr → Expr → Expr)} (hop : Joining operator?)
    (h : Account [] operand Expr.mentions) :
    ∀ n left, Account left.mentions (Parse.leftChain operand operator? n left) Expr.mentions
  | 0, _ => fail _
  | n + 1, left =>
    kind.bind fun k =>
      match hk : operator? k with
      | none => pure left rfl
      | some build =>
        advance.bind fun _ => (h.after left.mentions).bind fun right =>
          (h.leftChain hop n (build left right)).from_eq (hop k build hk left right).symm

/-- Reads a first operand, and operators with further ones. -/
def chain {operator? : Kind → Option (Expr → Expr → Expr)} (hop : Joining operator?)
    (h : Account [] operand Expr.mentions) (n : Nat) :
    Account [] (do Parse.leftChain operand operator? n (← operand)) Expr.mentions :=
  h.bind fun left => h.leftChain hop n left

def factor (h : Account [] whole Expr.mentions) :
    Account [] (Parse.factor whole bound) Expr.mentions :=
  h.selected.leadingChain
    (show ∀ e pos, (Expr.negate e pos).mentions = e.mentions from fun _ _ => rfl) bound

def product (h : Account [] whole Expr.mentions) :
    Account [] (Parse.product whole bound) Expr.mentions := h.factor.chain joining_product bound

def sum (h : Account [] whole Expr.mentions) : Account [] (Parse.sum whole bound) Expr.mentions :=
  h.product.chain joining_sum bound

def comparison (h : Account [] whole Expr.mentions) :
    Account [] (Parse.comparison whole bound) Expr.mentions :=
  h.sum.bind fun left => kind.bind fun k =>
    match relation? k with
    | none => pure left rfl
    | some _ => advance.bind fun _ => (h.sum.after left.mentions).bind fun _ => pure _ rfl

def inversion (h : Account [] whole Expr.mentions) :
    Account [] (Parse.inversion whole bound) Expr.mentions :=
  h.comparison.leadingChain
    (show ∀ e pos, (Expr.not e pos).mentions = e.mentions from fun _ _ => rfl) bound

def conjunction (h : Account [] whole Expr.mentions) :
    Account [] (Parse.conjunction whole bound) Expr.mentions :=
  h.inversion.chain joining_conj bound

def disjunction (h : Account [] whole Expr.mentions) :
    Account [] (Parse.disjunction whole bound) Expr.mentions :=
  h.conjunction.chain joining_disj bound

def nested (bound : Nat) : ∀ n, Account [] (Parse.nested bound n) Expr.mentions
  | 0 => fail _
  | n + 1 => (nested bound n).disjunction

/-- An account of reading an expression. -/
def expression (bound : Nat) : Account [] (Parse.expression bound) Expr.mentions :=
  nested bound bound

section Classes

/-- What the class that a class extends is mentioned as. -/
def parentMentions (parent : Option Class) : List Mention := parent.toList.map .inherits

/-- The steps of reading the class that a class extends. -/
def parentSteps : Steps Parse.parent :=
  (accept (w := []) (.mark '(')).steps.bind fun
    | true =>
      (here (w := [])).steps.bind fun pos => (name (w := [])).steps.bind fun word =>
        (expect (w := []) (.mark ')')).steps.bind fun _ => .inherit word pos
    | false => (pure (w := []) (q := parentMentions) none rfl).steps

theorem parentSteps_spells : parentSteps.Spells := by
  intro c hc
  refine spellsAt_accept hc (by simp) (fun c₁ hc₁ => ?_) fun _ _ _ => .nil
  refine spellsAt_here hc₁ (spellsAt_name hc₁ fun word c₂ hc₂ => ?_)
  refine spellsAt_expect hc₂ (by simp) fun _ c₃ _ => ?_
  exact .singleton ⟨[], c.lookahead.pos, c₂.lookahead.pos, by simp⟩

theorem inherit_mentions (word : String) (pos : Position) :
    (Steps.inherit word pos).Mentions [] parentMentions := by
  intro c found c' hrun
  rw [Steps.trace, hrun]
  rw [inherit_answer] at hrun
  cases hanswer : Event.parentAnswer word pos (c.class? word) with
  | error err =>
    rw [hanswer] at hrun
    cases hrun
  | ok answer =>
    rw [hanswer] at hrun
    cases hrun
    cases found <;> rfl

theorem parentSteps_mentions : parentSteps.Mentions [] parentMentions := by
  refine (accept _).mentions.bind fun opened => ?_
  cases opened with
  | true =>
    exact here.mentions.bind fun pos => name.mentions.bind fun word =>
      (expect _).mentions.bind fun _ => inherit_mentions word pos
  | false => exact (pure _ rfl).mentions

/-- Reads the class that a class extends. -/
def parent : Account [] Parse.parent parentMentions where
  steps := parentSteps
  spells := parentSteps_spells
  mentions := parentSteps_mentions

variable {inner : Parse Stmt} {bound : Nat}

def block (h : Account [] inner Stmt.mentions) :
    Account [] (Parse.block inner bound) Stmt.mentionsAll :=
  (expect _).bind fun _ => (expect _).bind fun _ => (expect _).bind fun _ =>
    (h.untilDedent bound).bind fun body => (expect _).bind fun _ =>
      pure body (Stmt.mentionsAll_eq_flatMap body).symm

def method (h : Account [] inner Stmt.mentions) :
    Account [] (Parse.method inner bound) fun m => Stmt.mentionsAll m.body :=
  (expect _).bind fun _ => name.bind fun _ => (expect _).bind fun _ =>
    (((name (w := [])).commaList bound).to_eq fun params => by simp).bind fun _ =>
      (expect _).bind fun _ => h.block.bind fun _ => pure _ rfl

def classBody (h : Account [] inner Stmt.mentions) : Account [] (Parse.classBody inner bound)
    fun body => parentMentions body.1 ++ Method.mentionsAll body.2 :=
  parent.bind fun found => (expect _).bind fun _ => (expect _).bind fun _ =>
    (expect _).bind fun _ =>
      ((h.method.untilDedent bound).after (parentMentions found)).bind fun methods =>
        pure (found, methods)
          (congrArg (parentMentions found ++ ·) (Method.mentionsAll_eq_flatMap methods).symm)

/-- The steps of reading a class. -/
def definingSteps {body : Parse (Option Class × List Method)} (h : Steps body) :
    Steps (Parse.defining body) :=
  (here (w := [])).steps.bind fun pos =>
    (expect (w := []) (.keyword .classWord)).steps.bind fun _ =>
      (name (w := [])).steps.bind fun word => h.bind fun x =>
        (expect (w := []) .dedent).steps.bind fun _ =>
          (Steps.complete ⟨word, x.2, x.1⟩).bind fun _ =>
            .look fun _ => Stmt.define ⟨word, x.2, x.1⟩ pos

theorem definingSteps_spells {body : Parse (Option Class × List Method)} {h : Steps body}
    (hs : h.Spells) : (definingSteps h).Spells := by
  intro c hc
  refine spellsAt_here hc (spellsAt_expect hc (by simp) fun _ c₁ hc₁ => ?_)
  refine spellsAt_name hc₁ fun word c₂ hc₂ => ?_
  refine .bind hc₂ (hs.at hc₂ _) fun x c₃ _ hc₃ => spellsAt_expect hc₃ (by simp) fun _ c₄ hc₄ => ?_
  refine .bind hc₄ (.singleton ?_) fun _ _ _ _ => .nil
  exact ⟨[], h.trace c₂, c.lookahead.pos, c₁.lookahead.pos, c₃.lookahead.pos, by simp⟩

theorem complete_mentions (w : List Mention) (cls : Class) :
    (Steps.complete cls).Mentions w fun _ => w ++ [.completes cls] := fun _ _ _ _ => rfl

theorem definingSteps_mentions {body : Parse (Option Class × List Method)} {h : Steps body}
    (hm : h.Mentions [] fun x => parentMentions x.1 ++ Method.mentionsAll x.2) :
    (definingSteps h).Mentions [] Stmt.mentions :=
  here.mentions.bind fun pos => (expect _).mentions.bind fun _ =>
    name.mentions.bind fun word => hm.bind fun x => (expect _).mentions.bind fun _ =>
      (complete_mentions _ ⟨word, x.2, x.1⟩).bind fun _ =>
        (pure (q := Stmt.mentions) (.define ⟨word, x.2, x.1⟩ pos) rfl).mentions

/-- Reads a class whose body is known to be accounted for. -/
def defining {body : Parse (Option Class × List Method)}
    (h : Account [] body fun x => parentMentions x.1 ++ Method.mentionsAll x.2) :
    Account [] (Parse.defining body) Stmt.mentions where
  steps := definingSteps h.steps
  spells := definingSteps_spells h.spells
  mentions := definingSteps_mentions h.mentions

/-- Reads a class. -/
def classDefinition (h : Account [] inner Stmt.mentions) :
    Account [] (Parse.classDefinition inner bound) Stmt.mentions :=
  h.classBody.defining.of_eq (classDefinition_eq_defining inner bound)

end Classes

section Statements

variable {inner : Parse Stmt} {bound : Nat}

def conditional (h : Account [] inner Stmt.mentions) :
    Account [] (Parse.conditional inner bound) Stmt.mentions :=
  here.bind fun _ => (expect _).bind fun _ => (expression bound).bind fun condition =>
    (h.block.after condition.mentions).bind fun body =>
      (accept (.keyword .elseWord)).bind fun more => branch (more = true)
        ((h.block.after (condition.mentions ++ Stmt.mentionsAll body)).bind fun _ =>
          pure _ (List.append_assoc ..))
        (pure _ rfl)

def returning (bound : Nat) : Account [] (Parse.returning bound) Stmt.mentions :=
  here.bind fun _ => (expect _).bind fun _ => (sees .newline).bind fun alone =>
    branch (alone = true) (pure (Stmt.ret none _) rfl)
      ((expression bound).bind fun value => pure (Stmt.ret (some value) _) rfl)

def printRest (bound : Nat) : ∀ n, Account [] (Parse.printRest bound n) Expr.mentionsAll
  | 0 => fail _
  | n + 1 =>
    (accept (.mark ',')).bind fun more => branch (more = true)
      ((expression bound).bind fun arg =>
        ((printRest bound n).after arg.mentions).bind fun _ => pure _ rfl)
      (pure [] rfl)

def printing (bound : Nat) : Account [] (Parse.printing bound) Stmt.mentions :=
  here.bind fun _ => (expect _).bind fun _ => (sees .newline).bind fun alone =>
    branch (alone = true) (pure (Stmt.print [] _) rfl)
      ((expression bound).bind fun first =>
        ((printRest bound bound).after first.mentions).bind fun rest =>
          pure (Stmt.print (first :: rest) _) rfl)

def simple (bound : Nat) : Account [] (Parse.simple bound) Stmt.mentions :=
  here.bind fun pos => (expression bound).bind fun target => here.bind fun sign =>
    (accept (.mark '=')).bind fun assigned => branch (assigned = true)
      (((expression bound).after target.mentions).bind fun value =>
        match hs : assignment? target value pos with
        | some s => pure s (mentions_assignment hs).symm
        | none => failAt sign .notAssignable)
      (pure (Stmt.eval target) rfl)

def ended {stmt : Parse Stmt} (h : Account [] stmt Stmt.mentions) :
    Account [] (Parse.ended stmt) Stmt.mentions :=
  h.bind fun s => (expect .newline).bind fun _ => pure s rfl

def anyStatement (h : Account [] inner Stmt.mentions) :
    Account [] (Parse.anyStatement inner bound) Stmt.mentions :=
  kind.bind fun
    | .keyword .classWord => h.classDefinition
    | .keyword .ifWord => h.conditional
    | .keyword .returnWord => (returning bound).ended
    | .keyword .printWord => (printing bound).ended
    | .keyword .defWord | .keyword .elseWord | .keyword .andWord | .keyword .orWord
    | .keyword .notWord | .keyword .noneWord | .keyword .trueWord | .keyword .falseWord
    | .number _ | .name _ | .text _ | .mark _ | .equal | .notEqual | .atMost | .atLeast
    | .newline | .indent | .dedent | .eof => (simple bound).ended

def nestedStatement (bound : Nat) : ∀ n, Account [] (Parse.nestedStatement bound n) Stmt.mentions
  | 0 => fail _
  | n + 1 => (nestedStatement bound n).anyStatement

def statement (bound : Nat) : Account [] (Parse.statement bound) Stmt.mentions :=
  nestedStatement bound bound

def statements (bound : Nat) : ∀ n, Account [] (Parse.statements bound n) Stmt.mentionsAll
  | 0 => fail _
  | n + 1 =>
    kind.bind fun
      | .eof => pure [] rfl
      | .newline => advance.bind fun _ => statements bound n
      | .keyword _ | .number _ | .name _ | .text _ | .mark _ | .equal | .notEqual | .atMost
      | .atLeast | .indent | .dedent =>
        (statement bound).bind fun first =>
          ((statements bound n).after first.mentions).bind fun _ => pure _ rfl

/-- An account of reading a program. -/
def program (bound : Nat) : Account [] (Parse.program bound) Program.mentions :=
  (statements bound bound).bind fun _ => pure _ rfl

end Statements

end Account

end Parse

end Mython
