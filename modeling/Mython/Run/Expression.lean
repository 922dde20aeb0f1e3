import Mython.Run.Machine
import Mython.Store.Order

namespace Mython

/-- What only the methods of a program can answer. -/
structure Guest where
  /-- Calls a method of a value, reporting a given line. The arguments belong to the call. -/
  call : Handle → String → List Handle → Nat → Run Handle
  /-- The text of a value, reporting a given line. -/
  render : Handle → Nat → Run String

/-- The method that prepares a new instance. -/
def initName : String := "__init__"

/-- The method that gives the text of an instance. -/
def textName : String := "__str__"

/-- The method that adds to an instance. -/
def addName : String := "__add__"

/-- The exact result of an operator, over all integers. Quotients go toward zero. -/
def ArithOp.exact : ArithOp → Int → Int → Int
  | add, a, b => a + b
  | sub, a, b => a - b
  | mul, a, b => a * b
  | div, a, b => a.tdiv b

/-- The result of an operator on words. -/
def ArithOp.onNumbers (op : ArithOp) (a b : Number) : Except Fault.Cause Number :=
  if op = .div ∧ b = 0 then .error .divisionByZero
  else match Number.ofInt? (op.exact a.toInt b.toInt) with
    | some value => .ok value
    | none => .error (.overflow op)

/-- The result of an operator on values that no method adds. -/
def ArithOp.onValues (op : ArithOp) (h : Heap) (x y : Handle) : Except Fault.Cause Object :=
  match op, h.object? x, h.object? y with
  | .add, some (.text a), some (.text b) => .ok (.text (a ++ b))
  | op, some (.number a), some (.number b) => (op.onNumbers a b).map .number
  | op, _, _ => .error (.operands op (h.kind x) (h.kind y))

/-- The negation of a value. -/
def Heap.negated (h : Heap) (x : Handle) : Except Fault.Cause Object :=
  match h.number? x with
  | none => .error (.negated (h.kind x))
  | some a =>
    match Number.ofInt? (-a.toInt) with
    | some value => .ok (.number value)
    | none => .error (.overflow .sub)

/-- A field of a value that messages call `owner`. -/
def Heap.field (h : Heap) (x : Handle) (owner name : String) : Except Fault.Cause Handle :=
  match (h.object? x).bind Object.fields? with
  | none => .error (.notInstance owner)
  | some fields =>
    match fields.get? name with
    | none => .error (.undefined (owner ++ "." ++ name))
    | some y => .ok y

/-- A field that is found is one of an instance that is there. -/
theorem Heap.field_eq_ok {h : Heap} {x y : Handle} {owner name : String}
    (hf : h.field x owner name = .ok y) :
    ∃ loc cls fields, h.get? loc = some (.inst cls fields) ∧ fields.get? name = some y := by
  rw [field] at hf
  split at hf
  · cases hf
  · next fields hfields =>
    split at hf
    · cases hf
    · next found hget =>
      cases hf
      obtain ⟨object, hobject, hof⟩ := Option.bind_eq_some_iff.1 hfields
      obtain ⟨loc, -, hloc⟩ := Option.bind_eq_some_iff.1 hobject
      cases object with
      | inst cls _ =>
        cases hof
        exact ⟨loc, cls, fields, hloc, hget⟩
      | _ => cases hof

/-- The value at the end of a row of fields. Messages call each value by the field it came from. -/
def Heap.follow (h : Heap) (owner : String) : Handle → List String → Except Fault.Cause Handle
  | x, [] => .ok x
  | x, name :: names =>
    match h.field x owner name with
    | .error cause => .error cause
    | .ok y => h.follow name y names

namespace Run

/-- Goes on with a result, or halts at a line. -/
def settle (line : Nat) : Except Fault.Cause α → Run α
  | .ok a => pure a
  | .error cause => raise line cause

/-- The value of a path, as one more owner of it. -/
def path (root : String) (fields : List String) (line : Nat) : Run Handle := fun m =>
  match m.scope.get? root with
  | none => (.error (.fault ⟨line, .undefined root⟩), m)
  | some x =>
    match m.heap.follow root x fields with
    | .error cause => (.error (.fault ⟨line, cause⟩), m)
    | .ok y => (.ok y, { m with heap := m.heap.retain y })

/-- Adds, subtracts, multiplies or divides two values, which belong to the operation. A sum is
asked of the left operand first, then of the right one, then formed from texts or numbers. -/
def arithmetic (g : Guest) (op : ArithOp) (x y : Handle) (line : Nat) : Run Handle := do
  if op = .add && (← ask fun h => (h.accepting? x addName 1).isSome) then
    holding x (g.call x addName [y] line)
  else if op = .add && (← ask fun h => (h.accepting? y addName 1).isSome) then
    holding y (g.call y addName [x] line)
  else
    holding x <| holding y do
      fresh (← settle line (← ask fun h => op.onValues h x y))

end Run

open Run

mutual

/-- The value of an expression. -/
def Expr.eval (g : Guest) : Expr → Run Handle
  | .number value _ => fresh (.number value)
  | .text content _ => fresh (.text content)
  | .truth value _ => fresh (.truth value)
  | .none _ => pure .absent
  | .path root fields pos => Run.path root fields pos.line
  | .field object name pos => do
    let x ← object.eval g
    holding x do
      let y ← settle pos.line (← ask fun h => h.field x object.describe name)
      retain y
      return y
  | .call object method args pos => do
    let x ← object.eval g
    holding x do
      if ← ask fun h => h.isInstance x then
        g.call x method (← Expr.evalAll g args) pos.line
      else
        raise pos.line (.notInstance object.describe)
  | .construct cls args pos => do
    let x ← freshInstance cls
    keeping x do
      let args ← Expr.evalAll g args
      if (cls.accepting? initName args.length).isSome then
        release (← g.call x initName args pos.line)
      else
        releaseAll args
      return x
  | .stringify arg pos => do
    let x ← arg.eval g
    let text ← holding x (g.render x pos.line)
    fresh (.text text)
  | .arith op left right pos => do
    let x ← left.eval g
    let y ← keeping x (right.eval g)
    arithmetic g op x y pos.line
  | .conj left right _ => do
    let x ← left.eval g
    holding x do
      if ← ask fun h => h.isTrue x then
        let y ← right.eval g
        holding y do
          fresh (.truth (← ask fun h => h.isTrue y))
      else
        fresh (.truth false)
  | .disj left right _ => do
    let x ← left.eval g
    holding x do
      if ← ask fun h => h.isTrue x then
        fresh (.truth true)
      else
        let y ← right.eval g
        holding y do
          fresh (.truth (← ask fun h => h.isTrue y))
  | .compare relation left right _ => do
    let x ← left.eval g
    holding x do
      let y ← right.eval g
      holding y do
        fresh (.truth (← ask fun h => h.holds relation x y))
  | .negate operand pos => do
    let x ← operand.eval g
    holding x do
      fresh (← settle pos.line (← ask fun h => h.negated x))
  | .not operand _ => do
    let x ← operand.eval g
    holding x do
      fresh (.truth (!(← ask fun h => h.isTrue x)))

/-- The values of several expressions. -/
def Expr.evalAll (g : Guest) : List Expr → Run (List Handle)
  | [] => pure []
  | e :: es => do
    let x ← e.eval g
    let xs ← keeping x (Expr.evalAll g es)
    return x :: xs

end

end Mython
