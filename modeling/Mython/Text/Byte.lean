namespace Mython.Byte

/-- The line feed. -/
def lineFeed : UInt8 := 0x0a

/-- The space, the one byte that indents. -/
def space : UInt8 := 0x20

/-- A digit, from `0` to `9`. -/
def isDigit (b : UInt8) : Bool := 0x30 ≤ b && b ≤ 0x39

/-- A letter, from `A` to `Z` or from `a` to `z`. -/
def isLetter (b : UInt8) : Bool := (0x41 ≤ b && b ≤ 0x5a) || (0x61 ≤ b && b ≤ 0x7a)

/-- A letter or an underscore: what a word starts with. -/
def startsWord (b : UInt8) : Bool := isLetter b || b == 0x5f

/-- A letter, a digit or an underscore: what a word goes on with. -/
def isWord (b : UInt8) : Bool := startsWord b || isDigit b

/-- The single and the double quote. -/
def isQuote (b : UInt8) : Bool := b == 0x27 || b == 0x22

/-- A visible ASCII character. -/
def isGraphic (b : UInt8) : Bool := 0x21 ≤ b && b ≤ 0x7e

/-- Space, tab and carriage return: what may stand between tokens of one line. -/
def isInlineBlank (b : UInt8) : Bool := b == space || b == 0x09 || b == 0x0d

/-- An inline blank or a line feed: what may stand before the first token of a line. -/
def isBlank (b : UInt8) : Bool := isInlineBlank b || b == lineFeed

/-- The ASCII text spelled by a run of bytes. -/
def text (run : List UInt8) : String :=
  String.ofList (run.map fun b => Char.ofNat b.toNat)

/-- The text encoded by a run of bytes, empty if the run is not UTF-8. -/
def decode (run : List UInt8) : String :=
  (String.fromUTF8? ⟨run.toArray⟩).getD ""

/-- A hexadecimal digit, in lower case. -/
def hexDigit (n : Nat) : Char :=
  Char.ofNat (if n < 10 then 0x30 + n else 0x57 + n)

/-- A byte written as `\x` and two hexadecimal digits. -/
def escape (b : UInt8) : String :=
  String.ofList ['\\', 'x', hexDigit (b.toNat / 16), hexDigit (b.toNat % 16)]

end Mython.Byte
