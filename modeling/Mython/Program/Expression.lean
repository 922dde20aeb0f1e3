import Mython.Program.Cursor

/-! Every level is a reader built from the one for whole expressions, which it uses inside
parentheses; `expression` closes the circle. The number `bound` exceeds the number of tokens, so
that no loop and no nesting runs out of it. -/

namespace Mython.Parse

/-- Reads operators and operands, grouping them to the left. -/
def leftChain (operand : Parse Expr) (operator? : Token.Kind → Option (Expr → Expr → Expr)) :
    Nat → Expr → Parse Expr
  | 0, _ => fail .unfinished
  | n + 1, left => do
    match operator? (← kind) with
    | none => return left
    | some build =>
      advance
      let right ← operand
      leftChain operand operator? n (build left right)

/-- Reads any number of one leading operator and what it applies to. -/
def leadingChain (operator : Token.Kind) (build : Expr → Position → Expr) (operand : Parse Expr) :
    Nat → Parse Expr
  | 0 => fail .unfinished
  | n + 1 => do
    let pos ← here
    if ← accept operator then
      return build (← leadingChain operator build operand n) pos
    else
      operand

/-- The name of the conversion to text. -/
def conversionName : String := "str"

/-- What a call of a bare name means: an instance of a class, or the conversion to text, which a
class of that name hides. -/
def bareCall (name : String) (args : List Expr) (pos : Position) : Parse Expr := do
  match (← get).class? name with
  | some cls => return .construct cls args pos
  | none =>
    if name = conversionName then
      match args with
      | [arg] => return .stringify arg pos
      | _ => failAt pos .conversionArity
    else
      failAt pos (.unknownClass name)

section Levels

variable (whole : Parse Expr) (bound : Nat)

/-- Reads arguments and the parenthesis that closes them. -/
def arguments : Parse (List Expr) := do
  let args ← commaList whole bound
  expect (.mark ')')
  return args

/-- Reads a literal, a name, a call of a name, or an expression in parentheses. -/
def primary : Parse Expr := do
  let pos ← here
  match ← kind with
  | .number value =>
    advance
    return .number value pos
  | .text content =>
    advance
    return .text content pos
  | .keyword .trueWord =>
    advance
    return .truth true pos
  | .keyword .falseWord =>
    advance
    return .truth false pos
  | .keyword .noneWord =>
    advance
    return .none pos
  | .mark '(' =>
    advance
    let e ← whole
    expect (.mark ')')
    return e
  | .name word =>
    advance
    if ← accept (.mark '(') then
      bareCall word (← arguments whole bound) pos
    else
      return .path word [] pos
  | found => fail (.expectedExpression found)

/-- Reads the fields and calls selected from an expression. -/
def selections : Nat → Expr → Parse Expr
  | 0, _ => fail .unfinished
  | n + 1, e => do
    if ← accept (.mark '.') then
      let word ← name
      if ← accept (.mark '(') then
        selections n (.call e word (← arguments whole bound) e.pos)
      else
        selections n (e.select word)
    else
      return e

/-- Reads a primary expression and what is selected from it. -/
def selected : Parse Expr := do
  selections whole bound bound (← primary whole bound)

/-- Reads an operand of `*` and `/`. -/
def factor : Parse Expr :=
  leadingChain (.mark '-') .negate (selected whole bound) bound

/-- The operators that bind like `*`. -/
def productOperator? : Token.Kind → Option (Expr → Expr → Expr)
  | .mark '*' => some fun l r => .arith .mul l r l.pos
  | .mark '/' => some fun l r => .arith .div l r l.pos
  | _ => none

/-- Reads an operand of `+` and `-`. -/
def product : Parse Expr := do
  leftChain (factor whole bound) productOperator? bound (← factor whole bound)

/-- The operators that bind like `+`. -/
def sumOperator? : Token.Kind → Option (Expr → Expr → Expr)
  | .mark '+' => some fun l r => .arith .add l r l.pos
  | .mark '-' => some fun l r => .arith .sub l r l.pos
  | _ => none

/-- Reads an operand of a comparison. -/
def sum : Parse Expr := do
  leftChain (product whole bound) sumOperator? bound (← product whole bound)

/-- The comparison that a token stands for. -/
def relation? : Token.Kind → Option Relation
  | .equal => some .equal
  | .notEqual => some .notEqual
  | .mark '<' => some .less
  | .mark '>' => some .greater
  | .atMost => some .atMost
  | .atLeast => some .atLeast
  | _ => none

/-- Reads an operand of `not`: at most one comparison. -/
def comparison : Parse Expr := do
  let left ← sum whole bound
  match relation? (← kind) with
  | none => return left
  | some relation =>
    advance
    let right ← sum whole bound
    return .compare relation left right left.pos

/-- Reads an operand of `and`. -/
def inversion : Parse Expr :=
  leadingChain (.keyword .notWord) .not (comparison whole bound) bound

/-- The operator `and`. -/
def conjOperator? : Token.Kind → Option (Expr → Expr → Expr)
  | .keyword .andWord => some fun l r => .conj l r l.pos
  | _ => none

/-- Reads an operand of `or`. -/
def conjunction : Parse Expr := do
  leftChain (inversion whole bound) conjOperator? bound (← inversion whole bound)

/-- The operator `or`. -/
def disjOperator? : Token.Kind → Option (Expr → Expr → Expr)
  | .keyword .orWord => some fun l r => .disj l r l.pos
  | _ => none

/-- Reads an expression, given how to read one inside parentheses. -/
def disjunction : Parse Expr := do
  leftChain (conjunction whole bound) disjOperator? bound (← conjunction whole bound)

end Levels

/-- Reads an expression with fewer than a given number of parentheses around any part of it. -/
def nested (bound : Nat) : Nat → Parse Expr
  | 0 => fail .unfinished
  | n + 1 => disjunction (nested bound n) bound

/-- Reads an expression. -/
def expression (bound : Nat) : Parse Expr := nested bound bound

end Mython.Parse
