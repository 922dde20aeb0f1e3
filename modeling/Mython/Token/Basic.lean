import Mython.Text.Decimal
import Mython.Text.Position

namespace Mython

/-- The reserved words. -/
inductive Keyword where
  | classWord
  | defWord
  | returnWord
  | ifWord
  | elseWord
  | printWord
  | andWord
  | orWord
  | notWord
  | noneWord
  | trueWord
  | falseWord
  deriving DecidableEq

namespace Keyword

/-- Every reserved word. -/
def all : List Keyword :=
  [classWord, defWord, returnWord, ifWord, elseWord, printWord, andWord, orWord, notWord, noneWord,
    trueWord, falseWord]

/-- How a reserved word is spelled in a program. -/
def spelling : Keyword → String
  | classWord => "class"
  | defWord => "def"
  | returnWord => "return"
  | ifWord => "if"
  | elseWord => "else"
  | printWord => "print"
  | andWord => "and"
  | orWord => "or"
  | notWord => "not"
  | noneWord => "None"
  | trueWord => "True"
  | falseWord => "False"

/-- How a reserved word is named in messages. -/
def label : Keyword → String
  | classWord => "Class"
  | defWord => "Def"
  | returnWord => "Return"
  | ifWord => "If"
  | elseWord => "Else"
  | printWord => "Print"
  | andWord => "And"
  | orWord => "Or"
  | notWord => "Not"
  | noneWord => "None"
  | trueWord => "True"
  | falseWord => "False"

/-- The reserved word with a given spelling. -/
def ofSpelling? (word : String) : Option Keyword :=
  all.find? fun k => k.spelling == word

end Keyword

namespace Token

/-- What a token is, apart from where it stands. -/
inductive Kind where
  | number (value : Number)
  | name (word : String)
  | text (content : String)
  | mark (c : Char)
  | keyword (k : Keyword)
  | equal
  | notEqual
  | atMost
  | atLeast
  | newline
  | indent
  | dedent
  | eof
  deriving DecidableEq

namespace Kind

/-- Whether a token is no number is told by what it is, without a search among all numbers. -/
instance (priority := 2000) decidableNoNumber :
    (k : Kind) → Decidable (∀ value, k = number value → False)
  | number value => isFalse fun h => h value rfl
  | name _ | text _ | mark _ | keyword _ | equal | notEqual | atMost | atLeast | newline | indent
  | dedent | eof => isTrue nofun

/-- A label with its payload in braces. -/
def braced (label payload : String) : String :=
  label ++ "\x7b" ++ payload ++ "\x7d"

/-- How a token is named in messages. -/
def label : Kind → String
  | number value => braced "Number" value.text
  | name word => braced "Id" word
  | text content => braced "String" content
  | mark c => braced "Char" (String.singleton c)
  | keyword k => k.label
  | equal => "Eq"
  | notEqual => "NotEq"
  | atMost => "LessOrEq"
  | atLeast => "GreaterOrEq"
  | newline => "Newline"
  | indent => "Indent"
  | dedent => "Dedent"
  | eof => "Eof"

/-- Tokens behind which a line is complete, so that the end of the text adds no line end. -/
def closesLine : Kind → Bool
  | newline | dedent | eof => true
  | _ => false

/-- The token that a word stands for. The word `eof` ends the program where it stands. -/
def ofWord (word : String) : Kind :=
  match Keyword.ofSpelling? word with
  | some k => keyword k
  | none => if word == "eof" then eof else name word

/-- The operator that a mark forms with an equals sign behind it. -/
def withEquals? : Char → Option Kind
  | '=' => some equal
  | '!' => some notEqual
  | '<' => some atMost
  | '>' => some atLeast
  | _ => none

end Kind

end Token

/-- A token and the place of its first byte. -/
structure Token where
  kind : Token.Kind
  pos : Position
  deriving DecidableEq

end Mython
