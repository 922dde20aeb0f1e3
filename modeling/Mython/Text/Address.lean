namespace Mython.Address

/-- A place as `0x` and hexadecimal digits. -/
def text (place : Nat) : String :=
  "0x" ++ String.ofList (Nat.toDigits 16 place)

/-- What stands in front of the digits of a place that is shown. -/
def lead : List Char := " object at 0x".toList

/-- A hexadecimal digit in lower case. -/
def isHex (c : Char) : Bool := c.isDigit || ('a' ≤ c && c ≤ 'f')

/-- How many digits a text shows behind a leading ` object at 0x`, if a `>` closes them. -/
def shown? (s : List Char) : Option Nat :=
  if lead.isPrefixOf s then
    let digits := (s.drop lead.length).takeWhile isHex
    if digits.length ≠ 0 && (s.drop (lead.length + digits.length)).head? == some '>' then
      some digits.length
    else none
  else none

/-- Replaces the digits of every place that is shown by one `?`; the first `skip` characters are
dropped. -/
def maskFrom : Nat → List Char → List Char
  | _, [] => []
  | skip + 1, _ :: s => maskFrom skip s
  | 0, c :: s =>
    match shown? (c :: s) with
    | some digits => lead ++ '?' :: maskFrom (lead.length - 1 + digits) s
    | none => c :: maskFrom 0 s

/-- Replaces the digits of every place that is shown by one `?`. -/
def mask (s : String) : String := String.ofList (maskFrom 0 s.toList)

end Mython.Address
