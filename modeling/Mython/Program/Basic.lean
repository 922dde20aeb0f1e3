import Mython.Text.Decimal
import Mython.Text.Position

/-! Programs as trees. A class stands in the tree wherever it is used: an expression that makes an
instance holds the class itself, not its name, so a program needs no table of classes to be run. -/

namespace Mython

/-- The operators on numbers. The first one also joins texts and can be defined by a class. -/
inductive ArithOp where
  | add
  | sub
  | mul
  | div
  deriving DecidableEq

/-- How an operator is written. -/
def ArithOp.symbol : ArithOp → String
  | add => "+"
  | sub => "-"
  | mul => "*"
  | div => "/"

/-- The comparisons. -/
inductive Relation where
  | equal
  | notEqual
  | less
  | greater
  | atMost
  | atLeast
  deriving DecidableEq

mutual

/-- Expressions, each with a place to report. An operation on a left operand is placed where that
operand is, a leading operator where it stands itself. -/
inductive Expr where
  | number (value : Number) (pos : Position)
  | text (content : String) (pos : Position)
  | truth (value : Bool) (pos : Position)
  | none (pos : Position)
  /-- A name and the fields selected from it in turn. -/
  | path (root : String) (fields : List String) (pos : Position)
  /-- A field of an expression that is no path. -/
  | field (object : Expr) (name : String) (pos : Position)
  | call (object : Expr) (method : String) (args : List Expr) (pos : Position)
  | construct (cls : Class) (args : List Expr) (pos : Position)
  | stringify (arg : Expr) (pos : Position)
  | arith (op : ArithOp) (left right : Expr) (pos : Position)
  | conj (left right : Expr) (pos : Position)
  | disj (left right : Expr) (pos : Position)
  | compare (relation : Relation) (left right : Expr) (pos : Position)
  | negate (operand : Expr) (pos : Position)
  | not (operand : Expr) (pos : Position)

/-- Statements. -/
inductive Stmt where
  | assign (name : String) (value : Expr) (pos : Position)
  | assignField (object : Expr) (field : String) (value : Expr) (pos : Position)
  | print (args : List Expr) (pos : Position)
  | ret (value : Option Expr) (pos : Position)
  | ifThen (condition : Expr) (body : List Stmt) (pos : Position)
  | ifElse (condition : Expr) (body other : List Stmt) (pos : Position)
  | define (cls : Class) (pos : Position)
  | eval (e : Expr)

/-- A method of a class. The receiver is not among its parameters. -/
structure Method where
  name : String
  params : List String
  body : List Stmt

/-- A class, with its methods as they were written and the class that it extends. -/
structure Class where
  name : String
  methods : List Method
  parent : Option Class

end

/-- A program: its statements in order. -/
structure Program where
  body : List Stmt

namespace Expr

/-- The place of an expression. -/
def pos : Expr → Position
  | number _ pos | text _ pos | truth _ pos | none pos | path _ _ pos | field _ _ pos
  | call _ _ _ pos | construct _ _ pos | stringify _ pos | arith _ _ _ pos | conj _ _ pos
  | disj _ _ pos | compare _ _ _ pos | negate _ pos | not _ pos => pos

/-- A field selected from an expression. A path grows by it. -/
def select : Expr → String → Expr
  | path root fields pos, name => path root (fields ++ [name]) pos
  | e, name => field e name e.pos

/-- What an expression is called in messages. -/
def describe : Expr → String
  | path root fields _ => ".".intercalate (root :: fields)
  | field object name _ => object.describe ++ "." ++ name
  | call object method _ _ => object.describe ++ "." ++ method ++ "()"
  | construct cls _ _ => cls.name ++ "()"
  | none _ => "None"
  | _ => "expression"

end Expr

/-- How many arguments a method takes. -/
def Method.arity (m : Method) : Nat := m.params.length

namespace Class

/-- A class, the one it extends, and so on. -/
def chain : Class → List Class
  | ⟨name, methods, none⟩ => [⟨name, methods, none⟩]
  | ⟨name, methods, some parent⟩ => ⟨name, methods, some parent⟩ :: parent.chain

/-- The method of a given name that a class itself defines: the last one, if several are written. -/
def own? (c : Class) (name : String) : Option Method :=
  c.methods.reverse.find? fun m => m.name == name

/-- The method of a given name in the nearest class of the chain that defines one. -/
def method? (c : Class) (name : String) : Option Method :=
  c.chain.findSome? fun k => k.own? name

/-- The method of a given name, if it takes `arity` arguments. A nearer method of another arity
hides those behind it. -/
def accepting? (c : Class) (name : String) (arity : Nat) : Option Method :=
  (c.method? name).filter fun m => m.arity == arity

/-- The names of a class's own methods, in order and each once. -/
def methodNames (c : Class) : List String :=
  (c.methods.map (·.name)).eraseDups.mergeSort fun a b => decide (a ≤ b)

/-- A class's own methods in order of their names. -/
def ownMethods (c : Class) : List Method :=
  c.methodNames.filterMap c.own?

end Class

end Mython
