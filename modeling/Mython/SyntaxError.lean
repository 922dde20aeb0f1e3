import Mython.Text.Byte
import Mython.Token.Basic

namespace Mython

namespace SyntaxError

/-- What is wrong with a text. -/
inductive Cause where
  /-- A byte that starts no token. -/
  | strayByte (b : UInt8)
  /-- A text literal without its closing quote. -/
  | unclosedText
  /-- A number that no word holds. -/
  | numberOutOfRange (digits : String)
  /-- An indentation that is not a whole number of levels. -/
  | brokenIndent (spaces : Nat)
  /-- A line more than one level deeper than the one before it. -/
  | deepIndent
  /-- No expression starts here. -/
  | expectedExpression (found : Token.Kind)
  /-- An assignment to something other than a name or a field. -/
  | notAssignable
  /-- The text conversion with none or several arguments. -/
  | conversionArity
  /-- Another token is needed here. -/
  | expectedToken (wanted found : Token.Kind)
  /-- A name is needed here. -/
  | expectedName (found : Token.Kind)
  /-- A class of this name has not been completed before this place. -/
  | unknownClass (name : String)
  /-- Reading was cut short. It never is: the bounds in use exceed the length of the text. -/
  | unfinished
  deriving DecidableEq

namespace Cause

/-- The code of a cause: `L` for tokens and layout, `P` for the grammar. -/
def code : Cause → String
  | strayByte _ => "L001"
  | unclosedText => "L002"
  | numberOutOfRange _ => "L003"
  | brokenIndent _ | deepIndent => "L004"
  | expectedExpression _ | notAssignable | conversionArity => "P001"
  | expectedToken _ _ | expectedName _ => "P002"
  | unknownClass _ => "P003"
  | unfinished => "P000"

/-- The wording of a cause. -/
def message : Cause → String
  | strayByte b => "unexpected character `" ++ Byte.escape b ++ "`"
  | unclosedText => "unterminated string literal"
  | numberOutOfRange digits => "integer literal `" ++ digits ++ "` is out of range"
  | brokenIndent spaces =>
    "indentation of " ++ Decimal.text spaces ++ " spaces is not a multiple of 2"
  | deepIndent => "unexpected indent: more than one level deeper than the enclosing block"
  | expectedExpression found => "expected expression, found " ++ found.label
  | notAssignable => "cannot assign to this expression"
  | conversionArity => "`str` takes exactly one argument"
  | expectedToken wanted found => "expected " ++ wanted.label ++ ", found " ++ found.label
  | expectedName found => "expected identifier, found " ++ found.label
  | unknownClass name => "unknown class `" ++ name ++ "`"
  | unfinished => "reading was cut short"

end Cause

end SyntaxError

/-- A cause and the place that shows it. -/
structure SyntaxError where
  cause : SyntaxError.Cause
  pos : Position
  deriving DecidableEq

namespace SyntaxError

/-- The code of an error. -/
def code (e : SyntaxError) : String := e.cause.code

/-- The full text of an error: code, place and wording. -/
def text (e : SyntaxError) : String :=
  "[" ++ e.code ++ "] " ++ Decimal.text e.pos.line ++ ":" ++ Decimal.text e.pos.column ++ " — " ++
    e.cause.message

end SyntaxError

end Mython
