import Mython.Token.Lexeme

/-! Layout is decided by spaces alone, two for each level. A scanner may be asked on after an error,
from wherever that error left it, and after the end, where it answers `eof` for ever. -/

namespace Mython

/-- Spaces in one level of indentation. -/
def indentWidth : Nat := 2

/-- What a scanner has to settle before it looks for a lexeme. -/
inductive Layout where
  /-- The next token is the first one of its line. -/
  | lineStart
  /-- Blocks have still to be closed, down to this many spaces. -/
  | closing (target : Nat)
  /-- Nothing. -/
  | inline
  deriving DecidableEq

/-- A text that has been read up to a place. -/
structure Scanner where
  /-- The bytes that have not been read. -/
  rest : List UInt8
  /-- The place of the first of them. -/
  pos : Position
  /-- The indentation of the open block, in spaces. -/
  indent : Nat
  layout : Layout
  /-- The token handed out last. -/
  current : Token

namespace Scanner

/-- The scanner in front of a text. Its current token stands for the line end before the text. -/
def ofBytes (bytes : List UInt8) : Scanner where
  rest := bytes
  pos := .start
  indent := 0
  layout := .lineStart
  current := ⟨.newline, .start⟩

/-- The scanner in front of a text. -/
def ofSource (source : String) : Scanner := ofBytes source.toUTF8.data.toList

/-- What a scanner answers: a token or an error, and the scanner that goes on. -/
abbrev Answer := Except SyntaxError Token × Scanner

/-- Reads past the first `n` bytes. -/
def skip (s : Scanner) (n : Nat) : Scanner :=
  { s with rest := s.rest.drop n, pos := s.pos.afterAll (s.rest.take n) }

/-- A token at the cursor. -/
def yields (s : Scanner) (kind : Token.Kind) : Answer := (.ok ⟨kind, s.pos⟩, s)

/-- An error at the cursor. -/
def fails (s : Scanner) (cause : SyntaxError.Cause) : Answer := (.error ⟨cause, s.pos⟩, s)

/-- The spaces behind the last line break of a run of blanks. -/
def spaces (blanks : List UInt8) : Nat :=
  blanks.foldl (fun n b =>
    if b = Byte.lineFeed then 0 else if b = Byte.space then n + 1 else n) 0

/-- Closes one block on the way to `target` spaces. -/
def dedent (s : Scanner) (target : Nat) : Answer :=
  let indent := s.indent - indentWidth
  let layout := if indent = target then .inline else .closing target
  { s with indent, layout }.yields .dedent

/-- The end of the text: the last line is ended, then the open blocks. -/
def finish (s : Scanner) : Answer :=
  if !s.current.kind.closesLine then s.yields .newline
  else if 0 < s.indent then { s with indent := s.indent - indentWidth }.yields .dedent
  else s.yields .eof

/-- The next token of a line. -/
def token (s : Scanner) : Answer :=
  let s := s.skip (s.rest.takeWhile Byte.isInlineBlank).length
  match s.rest with
  | [] => s.finish
  | first :: rest =>
    let lexeme := Lexeme.read first rest
    let behind := s.skip lexeme.length
    match lexeme.kind with
    | .error cause => (.error ⟨cause, s.pos⟩, behind)
    | .ok kind =>
      let layout := if kind = .newline then .lineStart else s.layout
      (.ok ⟨kind, s.pos⟩, { behind with layout })

/-- The first token of a line, in front of which a block may open or close. -/
def line (s : Scanner) : Answer :=
  let blanks := s.rest.takeWhile Byte.isBlank
  let count := spaces blanks
  let s := { s.skip blanks.length with layout := .inline }
  if s.rest.isEmpty then s.token
  else if count % indentWidth ≠ 0 then s.fails (.brokenIndent count)
  else if count = s.indent then s.token
  else if count < s.indent then s.dedent count
  else if count = s.indent + indentWidth then { s with indent := count }.yields .indent
  else s.fails .deepIndent

/-- Looks for the next token, leaving the current one alone. -/
def scan (s : Scanner) : Answer :=
  match s.layout with
  | .closing target => s.dedent target
  | .lineStart => s.line
  | .inline => s.token

/-- The next token, which becomes the current one. After an error the current token stays. -/
def next (s : Scanner) : Answer :=
  match s.scan with
  | (.ok t, s) => (.ok t, { s with current := t })
  | (.error e, s) => (.error e, s)

/-- The answers to `n` requests, each from where the one before it left the scanner. -/
def pull : Nat → Scanner → List Answer
  | 0, _ => []
  | n + 1, s =>
    let answer := s.next
    answer :: pull n answer.2

end Scanner

end Mython
