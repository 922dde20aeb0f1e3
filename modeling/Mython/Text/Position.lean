namespace Mython

/-- A place in a text: lines and columns count from one, columns in bytes. -/
structure Position where
  line : Nat
  column : Nat
  deriving DecidableEq

namespace Position

/-- The place of the first byte. -/
def start : Position := ⟨1, 1⟩

/-- The place behind the byte `b`. -/
def after (p : Position) (b : UInt8) : Position :=
  if b = 0x0a then ⟨p.line + 1, 1⟩ else ⟨p.line, p.column + 1⟩

/-- The place behind a run of bytes. -/
def afterAll (p : Position) (run : List UInt8) : Position :=
  run.foldl after p

@[simp]
theorem afterAll_nil (p : Position) : p.afterAll [] = p := rfl

@[simp]
theorem afterAll_cons (p : Position) (b : UInt8) (run : List UInt8) :
    p.afterAll (b :: run) = (p.after b).afterAll run := rfl

theorem afterAll_append (p : Position) (run more : List UInt8) :
    p.afterAll (run ++ more) = (p.afterAll run).afterAll more :=
  List.foldl_append

end Position

end Mython
