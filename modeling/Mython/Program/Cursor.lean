import Mython.Program.Basic
import Mython.Token.Stream

namespace Mython

/-- A place in a stream of tokens. -/
structure Cursor where
  /-- The token to be read next. -/
  lookahead : Token
  /-- The tokens behind it. -/
  ahead : List Token
  /-- The error that follows the last token, if the stream does not end. -/
  fault : Option SyntaxError
  /-- The classes completed so far, the newest first. -/
  classes : List Class

/-- Readers of tokens. -/
abbrev Parse := StateT Cursor (Except SyntaxError)

namespace Cursor

/-- The cursor at the head of a stream, unless an error stands there. -/
def ofStream (stream : TokenStream) : Except SyntaxError Cursor :=
  match stream.tokens, stream.fault with
  | t :: ts, fault => .ok ⟨t, ts, fault, []⟩
  | [], some e => .error e
  | [], none => .error ⟨.unfinished, .start⟩

/-- The newest completed class of a given name. -/
def class? (c : Cursor) (name : String) : Option Class :=
  c.classes.find? fun k => k.name == name

/-- The cursor behind the lookahead. An error in the stream is met here; at the end it stays. -/
def step (c : Cursor) : Except SyntaxError Cursor :=
  match c.ahead, c.fault with
  | t :: ts, _ => .ok { c with lookahead := t, ahead := ts }
  | [], some e => .error e
  | [], none => .ok c

end Cursor

namespace Parse

/-- The kind of the lookahead. -/
def kind : Parse Token.Kind := fun c => .ok (c.lookahead.kind, c)

/-- The place of the lookahead. -/
def here : Parse Position := fun c => .ok (c.lookahead.pos, c)

/-- Gives up at a place. -/
def failAt (pos : Position) (cause : SyntaxError.Cause) : Parse α := fun _ => .error ⟨cause, pos⟩

/-- Gives up at the lookahead. -/
def fail (cause : SyntaxError.Cause) : Parse α := fun c => .error ⟨cause, c.lookahead.pos⟩

/-- Reads the lookahead. -/
def advance : Parse Unit := fun c => c.step.map fun c => ((), c)

/-- Whether the lookahead is of a given kind. -/
def sees (kind : Token.Kind) : Parse Bool := fun c => .ok (c.lookahead.kind == kind, c)

/-- Reads the lookahead if it is of a given kind, and says whether it was. -/
def accept (kind : Token.Kind) : Parse Bool := do
  if ← sees kind then
    advance
    return true
  else
    return false

/-- Reads a token of a given kind. -/
def expect (wanted : Token.Kind) : Parse Unit := do
  let found ← kind
  if found = wanted then advance else fail (.expectedToken wanted found)

/-- Reads a name. -/
def name : Parse String := do
  match ← kind with
  | .name word =>
    advance
    return word
  | found => fail (.expectedName found)

/-- Reads items with commas between them, up to a closing parenthesis or the end. A comma may also
follow the last one. -/
def commaList (item : Parse α) : Nat → Parse (List α)
  | 0 => fail .unfinished
  | n + 1 => do
    if (← sees (.mark ')')) || (← sees .eof) then
      return []
    let first ← item
    if ← accept (.mark ',') then
      return first :: (← commaList item n)
    else
      return [first]

/-- Reads items up to the end of a block or of the text. -/
def untilDedent (item : Parse α) : Nat → Parse (List α)
  | 0 => fail .unfinished
  | n + 1 => do
    if (← sees .dedent) || (← sees .eof) then
      return []
    let first ← item
    return first :: (← untilDedent item n)

end Parse

end Mython
