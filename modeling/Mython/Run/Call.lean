import Mython.Run.Statement

/-! Calls and texts use a guest again, so there is a guest for every amount of fuel. The limit on
the depth of calls is a rule of the language and is checked apart from the fuel. -/

namespace Mython

open Run

/-- The instance and the method that a call is about, or the first reason why there is no such
call. -/
def Machine.dispatch (m : Machine) (limit : Nat) (x : Handle) (name : String) (args : Nat) :
    Except Fault.Cause (Loc × Method) :=
  match x.loc?, m.heap.object? x with
  | some loc, some (.inst cls _) =>
    match cls.method? name with
    | none => .error (.noMethod cls.name name)
    | some method =>
      if method.arity ≠ args then .error (.arity name method.arity args)
      else if limit ≤ m.depth then .error (.depth limit)
      else .ok (loc, method)
  | _, some object => .error (.notInstance object.kind.label)
  | _, none => .error (.notInstance absentText)

namespace Guest

/-- The value of a finished method body. -/
def result : Completion → Run Handle
  | .ret x => pure x
  | .next x => do
    release x
    return .absent

/-- Calls a method. The receiver is held through the whole call, whatever becomes of the name `self`
in the scope of the method. -/
def invoke (g : Guest) (limit : Nat) (x : Handle) (name : String) (args : List Handle)
    (line : Nat) : Run Handle := do
  match (← get).dispatch limit x name args.length with
  | .error cause =>
    releaseAll args
    raise line cause
  | .ok (loc, method) =>
    let receiver := Handle.own loc
    retain receiver
    holding receiver do
      retain receiver
      inScope ⟨[(selfName, receiver)]⟩ do
        assignAll method.params args
        result (← Stmt.execAll g method.body)

/-- The text that a method of an instance gives. -/
def textOf (g : Guest) (x : Handle) (line : Nat) : Run String := do
  let y ← g.call x textName [] line
  holding y (g.render y line)

/-- The text of a value. A class that defines the text of its instances is shown by a new one. -/
def text (g : Guest) (x : Handle) (line : Nat) : Run String := do
  match x.loc?, ← ask fun h => h.object? x with
  | some loc, some object =>
    match object with
    | .inst cls _ =>
      if (cls.accepting? textName 0).isSome then
        retain (.own loc)
        holding (.own loc) (g.textOf x line)
      else
        return object.plainText loc
    | .cls cls =>
      if (cls.accepting? textName 0).isSome then
        let y ← freshInstance cls
        holding y (g.textOf y line)
      else
        return object.plainText loc
    | _ => return object.plainText loc
  | _, _ => return absentText

/-- The guest with a given amount of fuel and limit on the depth of calls. -/
def within (limit : Nat) : Nat → Guest
  | 0 => ⟨fun _ _ _ _ => throw .exhausted, fun _ _ => throw .exhausted⟩
  | n + 1 =>
    ⟨fun x name args line => (within limit n).invoke limit x name args line,
      fun x line => (within limit n).text x line⟩

end Guest

end Mython
