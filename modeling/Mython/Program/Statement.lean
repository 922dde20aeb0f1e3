import Mython.Program.Expression

namespace Mython

namespace Parse

section Forms

variable (inner : Parse Stmt) (bound : Nat)

/-- Reads a block: a colon, and indented statements on the lines behind it. -/
def block : Parse (List Stmt) := do
  expect (.mark ':')
  expect .newline
  expect .indent
  let body ← untilDedent inner bound
  expect .dedent
  return body

/-- Reads a method. -/
def method : Parse Method := do
  expect (.keyword .defWord)
  let word ← name
  expect (.mark '(')
  let params ← commaList name bound
  expect (.mark ')')
  let body ← block inner bound
  return ⟨word, params, body⟩

/-- Reads the class that a class extends, if it names one. -/
def parent : Parse (Option Class) := do
  if ← accept (.mark '(') then
    let pos ← here
    let word ← name
    expect (.mark ')')
    match (← get).class? word with
    | some cls => return some cls
    | none => failAt pos (.unknownClass word)
  else
    return none

/-- Reads a class. It is known to what follows it, not to its own body. -/
def classDefinition : Parse Stmt := do
  let pos ← here
  expect (.keyword .classWord)
  let word ← name
  let parent ← parent
  expect (.mark ':')
  expect .newline
  expect .indent
  let methods ← untilDedent (method inner bound) bound
  expect .dedent
  let cls : Class := ⟨word, methods, parent⟩
  modify fun c => { c with classes := cls :: c.classes }
  return .define cls pos

/-- Reads a condition and its one or two blocks. -/
def conditional : Parse Stmt := do
  let pos ← here
  expect (.keyword .ifWord)
  let condition ← expression bound
  let body ← block inner bound
  if ← accept (.keyword .elseWord) then
    let other ← block inner bound
    return .ifElse condition body other pos
  else
    return .ifThen condition body pos

/-- Reads a return, with or without a value. -/
def returning : Parse Stmt := do
  let pos ← here
  expect (.keyword .returnWord)
  if ← sees .newline then
    return .ret none pos
  else
    return .ret (some (← expression bound)) pos

/-- Reads the arguments of a print statement behind the first one. -/
def printRest : Nat → Parse (List Expr)
  | 0 => fail .unfinished
  | n + 1 => do
    if ← accept (.mark ',') then
      let arg ← expression bound
      return arg :: (← printRest n)
    else
      return []

/-- Reads a print statement. -/
def printing : Parse Stmt := do
  let pos ← here
  expect (.keyword .printWord)
  if ← sees .newline then
    return .print [] pos
  else
    let first ← expression bound
    return .print (first :: (← printRest bound bound)) pos

/-- The assignment to what an expression names, if it names a variable or a field. -/
def assignment? (target value : Expr) (pos : Position) : Option Stmt :=
  match target with
  | .path root fields origin =>
    match fields.getLast? with
    | none => some (.assign root value pos)
    | some last => some (.assignField (.path root fields.dropLast origin) last value pos)
  | .field object name _ => some (.assignField object name value pos)
  | _ => none

/-- Reads an assignment or an expression. Whether the left side can be assigned to is asked only
when the right side has been read. -/
def simple : Parse Stmt := do
  let pos ← here
  let target ← expression bound
  let sign ← here
  if ← accept (.mark '=') then
    let value ← expression bound
    match assignment? target value pos with
    | some stmt => return stmt
    | none => failAt sign .notAssignable
  else
    return .eval target

/-- Reads the line end behind a statement. -/
def ended (stmt : Parse Stmt) : Parse Stmt := do
  let s ← stmt
  expect .newline
  return s

/-- Reads a statement, given how to read one inside a block. -/
def anyStatement : Parse Stmt := do
  match ← kind with
  | .keyword .classWord => classDefinition inner bound
  | .keyword .ifWord => conditional inner bound
  | .keyword .returnWord => ended (returning bound)
  | .keyword .printWord => ended (printing bound)
  | _ => ended (simple bound)

end Forms

/-- Reads a statement with fewer than a given number of blocks around any part of it. -/
def nestedStatement (bound : Nat) : Nat → Parse Stmt
  | 0 => fail .unfinished
  | n + 1 => anyStatement (nestedStatement bound n) bound

/-- Reads a statement. -/
def statement (bound : Nat) : Parse Stmt := nestedStatement bound bound

/-- Reads statements up to the end, with any number of line ends between them. -/
def statements (bound : Nat) : Nat → Parse (List Stmt)
  | 0 => fail .unfinished
  | n + 1 => do
    match ← kind with
    | .eof => return []
    | .newline =>
      advance
      statements bound n
    | _ =>
      let first ← statement bound
      return first :: (← statements bound n)

/-- Reads a program. -/
def program (bound : Nat) : Parse Program := do
  return ⟨← statements bound bound⟩

end Parse

/-- The program that a stream of tokens spells. -/
def TokenStream.parse (stream : TokenStream) : Except SyntaxError Program := do
  let cursor ← Cursor.ofStream stream
  Parse.program (stream.tokens.length + 2) |>.run' cursor

/-- The program that a text spells, or the first thing that is wrong with it. -/
def parse (source : String) : Except SyntaxError Program :=
  (TokenStream.ofSource source).parse

end Mython
