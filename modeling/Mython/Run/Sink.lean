namespace Mython

/-- How much a sink takes. -/
inductive Capacity where
  /-- Everything. -/
  | endless
  /-- This many texts more. -/
  | writes (left : Nat)
  /-- What fits into the rest of a buffer of `size` bytes in front of a device that takes nothing. A
  text as long as the whole buffer is not buffered at all. -/
  | buffer (size left : Nat)
  deriving DecidableEq

/-- What can be taken after a text, unless that text is refused. -/
def Capacity.take? : Capacity → String → Option Capacity
  | .endless, _ => some .endless
  | .writes (n + 1), _ => some (.writes n)
  | .writes 0, _ => none
  | .buffer size left, text =>
    if text.utf8ByteSize < size ∧ text.utf8ByteSize ≤ left then
      some (.buffer size (left - text.utf8ByteSize))
    else none

/-- The texts taken so far, and how much more is taken. -/
structure Sink where
  capacity : Capacity
  /-- Why a text is refused. -/
  refusal : String
  written : Array String

namespace Sink

/-- A sink that takes everything. -/
def endless : Sink := ⟨.endless, "", #[]⟩

/-- Writes a text, unless it is refused. -/
def write? (s : Sink) (text : String) : Option Sink :=
  (s.capacity.take? text).map fun capacity =>
    { s with capacity, written := s.written.push text }

/-- All texts taken so far, in order. -/
def contents (s : Sink) : String := String.join s.written.toList

/-- What reaches the outside in the end, unless texts are left in a buffer. -/
def flush (s : Sink) : Except String String :=
  match s.capacity with
  | .buffer _ _ => if s.written.isEmpty then .ok "" else .error s.refusal
  | _ => .ok s.contents

end Sink

end Mython
