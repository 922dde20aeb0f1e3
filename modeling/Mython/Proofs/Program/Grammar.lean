import Mython.Program.Statement

/-! The grammar of programs, apart from any way to read them. Trees are plain: they have no places,
and a class is given by its name. The rules are told which classes have been completed, because a
call of a bare name means nothing without them. -/

namespace Mython

/-- Expressions without places. -/
inductive PlainExpr where
  | number (value : Number)
  | text (content : String)
  | truth (value : Bool)
  | none
  | path (root : String) (fields : List String)
  | field (object : PlainExpr) (name : String)
  | call (object : PlainExpr) (method : String) (args : List PlainExpr)
  | construct (cls : String) (args : List PlainExpr)
  | stringify (arg : PlainExpr)
  | arith (op : ArithOp) (left right : PlainExpr)
  | conj (left right : PlainExpr)
  | disj (left right : PlainExpr)
  | compare (relation : Relation) (left right : PlainExpr)
  | negate (operand : PlainExpr)
  | not (operand : PlainExpr)

mutual

/-- Statements without places. -/
inductive PlainStmt where
  | assign (name : String) (value : PlainExpr)
  | assignField (object : PlainExpr) (field : String) (value : PlainExpr)
  | print (args : List PlainExpr)
  | ret (value : Option PlainExpr)
  | ifThen (condition : PlainExpr) (body : List PlainStmt)
  | ifElse (condition : PlainExpr) (body other : List PlainStmt)
  | define (name : String) (parent : Option String) (methods : List PlainMethod)
  | eval (e : PlainExpr)

/-- Methods without places. -/
structure PlainMethod where
  name : String
  params : List String
  body : List PlainStmt

end

mutual

/-- An expression without its places, and with classes by name. -/
def Expr.plain : Expr → PlainExpr
  | .number value _ => .number value
  | .text content _ => .text content
  | .truth value _ => .truth value
  | .none _ => .none
  | .path root fields _ => .path root fields
  | .field object name _ => .field object.plain name
  | .call object method args _ => .call object.plain method (Expr.plainAll args)
  | .construct cls args _ => .construct cls.name (Expr.plainAll args)
  | .stringify arg _ => .stringify arg.plain
  | .arith op left right _ => .arith op left.plain right.plain
  | .conj left right _ => .conj left.plain right.plain
  | .disj left right _ => .disj left.plain right.plain
  | .compare relation left right _ => .compare relation left.plain right.plain
  | .negate operand _ => .negate operand.plain
  | .not operand _ => .not operand.plain

/-- Expressions without their places. -/
def Expr.plainAll : List Expr → List PlainExpr
  | [] => []
  | e :: es => e.plain :: Expr.plainAll es

end

mutual

/-- A statement without its places, and with classes by name where they are used. -/
def Stmt.plain : Stmt → PlainStmt
  | .assign name value _ => .assign name value.plain
  | .assignField object field value _ => .assignField object.plain field value.plain
  | .print args _ => .print (Expr.plainAll args)
  | .ret value _ => .ret (value.map Expr.plain)
  | .ifThen condition body _ => .ifThen condition.plain (Stmt.plainAll body)
  | .ifElse condition body other _ =>
    .ifElse condition.plain (Stmt.plainAll body) (Stmt.plainAll other)
  | .define ⟨name, methods, parent⟩ _ =>
    .define name (parent.map Class.name) (Method.plainAll methods)
  | .eval e => .eval e.plain

/-- Statements without their places. -/
def Stmt.plainAll : List Stmt → List PlainStmt
  | [] => []
  | s :: ss => s.plain :: Stmt.plainAll ss

/-- Methods without their places. -/
def Method.plainAll : List Method → List PlainMethod
  | [] => []
  | ⟨name, params, body⟩ :: ms => ⟨name, params, Stmt.plainAll body⟩ :: Method.plainAll ms

end

namespace Grammar

open Token (Kind)

/-- The levels of precedence, from loose to tight. -/
inductive Level where
  | disjunction
  | conjunction
  | inversion
  | comparison
  | sum
  | product
  | factor
  | selection
  | primary
  deriving DecidableEq

namespace Level

/-- The next level down. -/
def tighter : Level → Level
  | disjunction => conjunction
  | conjunction => inversion
  | inversion => comparison
  | comparison => sum
  | sum => product
  | product => factor
  | factor => selection
  | selection => primary
  | primary => primary

/-- The operators that group to the left, each at its level. -/
def operator? : Level → Kind → Option (PlainExpr → PlainExpr → PlainExpr)
  | disjunction, .keyword .orWord => some .disj
  | conjunction, .keyword .andWord => some .conj
  | sum, .mark '+' => some (.arith .add)
  | sum, .mark '-' => some (.arith .sub)
  | product, .mark '*' => some (.arith .mul)
  | product, .mark '/' => some (.arith .div)
  | _, _ => none

/-- The operators that stand in front of their operand. -/
def leading? : Level → Kind → Option (PlainExpr → PlainExpr)
  | inversion, .keyword .notWord => some .not
  | factor, .mark '-' => some .negate
  | _, _ => none

end Level

/-- The comparisons. -/
def relation? : Kind → Option Relation
  | .equal => some .equal
  | .notEqual => some .notEqual
  | .mark '<' => some .less
  | .mark '>' => some .greater
  | .atMost => some .atMost
  | .atLeast => some .atLeast
  | _ => none

/-- A field selected from an expression: a path grows by it. -/
def select : PlainExpr → String → PlainExpr
  | .path root fields, name => .path root (fields ++ [name])
  | e, name => .field e name

/-- What the rules for expressions derive: an expression of a level, or a list of arguments. -/
inductive Phrase where
  | expr (level : Level) (e : PlainExpr)
  | args (es : List PlainExpr)

/-- The expressions that tokens spell when some classes have been completed. -/
inductive Spells (known : List String) : List Kind → Phrase → Prop
  | tighter {level : Level} {ts : List Kind} {e : PlainExpr}
      (h : Spells known ts (.expr level.tighter e)) : Spells known ts (.expr level e)
  | operator {level : Level} {k : Kind} {build : PlainExpr → PlainExpr → PlainExpr}
      {ts us : List Kind} {l r : PlainExpr} (hk : level.operator? k = some build)
      (hl : Spells known ts (.expr level l)) (hr : Spells known us (.expr level.tighter r)) :
      Spells known (ts ++ k :: us) (.expr level (build l r))
  | leading {level : Level} {k : Kind} {build : PlainExpr → PlainExpr} {ts : List Kind}
      {e : PlainExpr} (hk : level.leading? k = some build) (h : Spells known ts (.expr level e)) :
      Spells known (k :: ts) (.expr level (build e))
  | compare {k : Kind} {relation : Relation} {ts us : List Kind} {l r : PlainExpr}
      (hk : relation? k = some relation) (hl : Spells known ts (.expr .sum l))
      (hr : Spells known us (.expr .sum r)) :
      Spells known (ts ++ k :: us) (.expr .comparison (.compare relation l r))
  | field {ts : List Kind} {e : PlainExpr} (name : String)
      (h : Spells known ts (.expr .selection e)) :
      Spells known (ts ++ [.mark '.', .name name]) (.expr .selection (select e name))
  | call {ts us : List Kind} {e : PlainExpr} {es : List PlainExpr} (name : String)
      (h : Spells known ts (.expr .selection e)) (ha : Spells known us (.args es)) :
      Spells known (ts ++ .mark '.' :: .name name :: .mark '(' :: (us ++ [.mark ')']))
        (.expr .selection (.call e name es))
  | number (value : Number) : Spells known [.number value] (.expr .primary (.number value))
  | text (content : String) : Spells known [.text content] (.expr .primary (.text content))
  | trueWord : Spells known [.keyword .trueWord] (.expr .primary (.truth true))
  | falseWord : Spells known [.keyword .falseWord] (.expr .primary (.truth false))
  | noneWord : Spells known [.keyword .noneWord] (.expr .primary .none)
  | parens {ts : List Kind} {e : PlainExpr} (h : Spells known ts (.expr .disjunction e)) :
      Spells known (.mark '(' :: (ts ++ [.mark ')'])) (.expr .primary e)
  | name (word : String) : Spells known [.name word] (.expr .primary (.path word []))
  | construct {us : List Kind} {es : List PlainExpr} {word : String} (hk : word ∈ known)
      (ha : Spells known us (.args es)) :
      Spells known (.name word :: .mark '(' :: (us ++ [.mark ')']))
        (.expr .primary (.construct word es))
  | stringify {us : List Kind} {e : PlainExpr} (hk : "str" ∉ known)
      (ha : Spells known us (.args [e])) :
      Spells known (.name "str" :: .mark '(' :: (us ++ [.mark ')'])) (.expr .primary (.stringify e))
  | noArgs : Spells known [] (.args [])
  | lastArg {ts : List Kind} {e : PlainExpr} (h : Spells known ts (.expr .disjunction e)) :
      Spells known ts (.args [e])
  | moreArgs {ts us : List Kind} {e : PlainExpr} {es : List PlainExpr}
      (h : Spells known ts (.expr .disjunction e)) (hs : Spells known us (.args es)) :
      Spells known (ts ++ .mark ',' :: us) (.args (e :: es))

/-- Expressions with commas between them, at least one. -/
inductive Listed (known : List String) : List Kind → List PlainExpr → Prop
  | last {ts : List Kind} {e : PlainExpr} (h : Spells known ts (.expr .disjunction e)) :
      Listed known ts [e]
  | more {ts us : List Kind} {e : PlainExpr} {es : List PlainExpr}
      (h : Spells known ts (.expr .disjunction e)) (hs : Listed known us es) :
      Listed known (ts ++ .mark ',' :: us) (e :: es)

/-- Names with commas between them; a comma may also follow the last one. -/
inductive Names : List Kind → List String → Prop
  | none : Names [] []
  | last (word : String) : Names [.name word] [word]
  | more {us : List Kind} {words : List String} (word : String) (h : Names us words) :
      Names (.name word :: .mark ',' :: us) (word :: words)

/-- What a value given to an expression assigns: a variable, or a field of what is in front. -/
inductive Assigns : PlainExpr → PlainExpr → PlainStmt → Prop
  | root (name : String) (value : PlainExpr) :
      Assigns (.path name []) value (.assign name value)
  | member (root : String) (fields : List String) (last : String) (value : PlainExpr) :
      Assigns (.path root (fields ++ [last])) value (.assignField (.path root fields) last value)
  | field (object : PlainExpr) (name : String) (value : PlainExpr) :
      Assigns (.field object name) value (.assignField object name value)

/-- An indented block around the tokens of its body. -/
def block (ts : List Kind) : List Kind :=
  .mark ':' :: .newline :: .indent :: (ts ++ [.dedent])

/-- How the class that a class extends is written. -/
def heritage : Option String → List Kind
  | none => []
  | some word => [.mark '(', .name word, .mark ')']

/-- What the rules for statements derive: a statement, statements, or methods of a class. -/
inductive Clause where
  | stmt (s : PlainStmt)
  | stmts (ss : List PlainStmt)
  | methods (ms : List PlainMethod)

/-- The statements that tokens spell, with the classes completed in front of them and behind. A
class is completed with its definition, so not yet in its own body. -/
inductive Forms : List String → List Kind → Clause → List String → Prop
  | returnNone {known : List String} :
      Forms known [.keyword .returnWord, .newline] (.stmt (.ret none)) known
  | returnValue {known : List String} {ts : List Kind} {e : PlainExpr}
      (h : Spells known ts (.expr .disjunction e)) :
      Forms known (.keyword .returnWord :: (ts ++ [.newline])) (.stmt (.ret (some e))) known
  | printNone {known : List String} :
      Forms known [.keyword .printWord, .newline] (.stmt (.print [])) known
  | print {known : List String} {ts : List Kind} {es : List PlainExpr} (h : Listed known ts es) :
      Forms known (.keyword .printWord :: (ts ++ [.newline])) (.stmt (.print es)) known
  | assign {known : List String} {ts us : List Kind} {target value : PlainExpr} {s : PlainStmt}
      (ht : Spells known ts (.expr .disjunction target))
      (hv : Spells known us (.expr .disjunction value)) (hs : Assigns target value s) :
      Forms known (ts ++ .mark '=' :: (us ++ [.newline])) (.stmt s) known
  | eval {known : List String} {ts : List Kind} {e : PlainExpr}
      (h : Spells known ts (.expr .disjunction e)) :
      Forms known (ts ++ [.newline]) (.stmt (.eval e)) known
  | ifThen {known known' : List String} {ts us : List Kind} {e : PlainExpr} {ss : List PlainStmt}
      (hc : Spells known ts (.expr .disjunction e)) (hb : Forms known us (.stmts ss) known')
      (hne : ss ≠ []) :
      Forms known (.keyword .ifWord :: (ts ++ block us)) (.stmt (.ifThen e ss)) known'
  | ifElse {known known' known'' : List String} {ts us vs : List Kind} {e : PlainExpr}
      {ss ss' : List PlainStmt} (hc : Spells known ts (.expr .disjunction e))
      (hb : Forms known us (.stmts ss) known') (hne : ss ≠ [])
      (ho : Forms known' vs (.stmts ss') known'') (hne' : ss' ≠ []) :
      Forms known (.keyword .ifWord :: (ts ++ (block us ++ .keyword .elseWord :: block vs)))
        (.stmt (.ifElse e ss ss')) known''
  | define {known known' : List String} {us : List Kind} {ms : List PlainMethod} (word : String)
      {parent : Option String} (hp : ∀ p ∈ parent, p ∈ known)
      (hm : Forms known us (.methods ms) known') (hne : ms ≠ []) :
      Forms known (.keyword .classWord :: .name word :: (heritage parent ++ block us))
        (.stmt (.define word parent ms)) (word :: known')
  | noStmts {known : List String} : Forms known [] (.stmts []) known
  | nextStmt {known known' known'' : List String} {ts us : List Kind} {s : PlainStmt}
      {ss : List PlainStmt} (h : Forms known ts (.stmt s) known')
      (hs : Forms known' us (.stmts ss) known'') :
      Forms known (ts ++ us) (.stmts (s :: ss)) known''
  | noMethods {known : List String} : Forms known [] (.methods []) known
  | nextMethod {known known' known'' : List String} {ps ts us : List Kind} {params : List String}
      {ss : List PlainStmt} {ms : List PlainMethod} (word : String) (hp : Names ps params)
      (hb : Forms known ts (.stmts ss) known') (hne : ss ≠ [])
      (hs : Forms known' us (.methods ms) known'') :
      Forms known (.keyword .defWord :: .name word :: .mark '(' ::
        (ps ++ .mark ')' :: (block ts ++ us))) (.methods (⟨word, params, ss⟩ :: ms)) known''

/-- The programs that tokens spell: statements, with no class known in front of them. -/
def Derives (ts : List Kind) (ss : List PlainStmt) : Prop :=
  ∃ known, Forms [] ts (.stmts ss) known

end Grammar

end Mython
