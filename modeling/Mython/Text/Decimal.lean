namespace Mython

/-- The integers of the language: signed words of 64 bits. -/
abbrev Number := Int64

namespace Number

/-- The least word. -/
def least : Int := -9223372036854775808

/-- The greatest word. -/
def greatest : Int := 9223372036854775807

/-- The word that holds `n`, if one does. -/
def ofInt? (n : Int) : Option Number :=
  if least ≤ n ∧ n ≤ greatest then some (.ofInt n) else none

end Number

namespace Decimal

/-- The value of a run of digits, most significant first. -/
def value (digits : List Char) : Nat :=
  digits.foldl (fun n d => 10 * n + (d.toNat - '0'.toNat)) 0

/-- The value of a run of digits that is not empty and holds nothing else. -/
def read? (digits : List Char) : Option Nat :=
  if !digits.isEmpty && digits.all Char.isDigit then some (value digits) else none

/-- Reads a word: one sign at most, then digits, in range. -/
def readNumber? (s : String) : Option Number :=
  match s.toList with
  | '-' :: digits => read? digits >>= fun n => Number.ofInt? (-n)
  | '+' :: digits => read? digits >>= fun n => Number.ofInt? n
  | digits => read? digits >>= fun n => Number.ofInt? n

/-- The greatest count. -/
def greatestCount : Nat := 18446744073709551615

/-- Reads a count: one plus sign at most, then digits. -/
def readCount? (s : String) : Option Nat :=
  let digits := match s.toList with
    | '+' :: digits => digits
    | digits => digits
  (read? digits).filter (· ≤ greatestCount)

/-- The decimal text of an integer: no leading zeros, a minus sign if it is negative. -/
def text : Int → String
  | .ofNat n => n.repr
  | .negSucc n => "-" ++ (n + 1).repr

end Decimal

/-- The decimal text of a word. -/
def Number.text (n : Number) : String := Decimal.text n.toInt

end Mython
