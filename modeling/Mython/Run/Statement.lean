import Mython.Run.Expression

namespace Mython

open Run

/-- How a statement ends. The value belongs to whoever executes the statement. -/
inductive Completion where
  /-- The next statement follows. -/
  | next (value : Handle)
  /-- The method or program ends with a value. -/
  | ret (value : Handle)
  deriving DecidableEq

/-- The texts of arguments. Each is evaluated, put into text and let go before the next. -/
def Expr.textAll (g : Guest) (line : Nat) : List Expr → Run (List String)
  | [] => pure []
  | e :: es => do
    let x ← e.eval g
    let text ← holding x (g.render x line)
    return text :: (← textAll g line es)

/-- The instance that a value is, to be held while `body` runs. -/
def Run.holdingInstance (x : Handle) (describe : String) (line : Nat) (body : Loc → Run α) :
    Run α := do
  match x.loc?, ← ask fun h => h.isInstance x with
  | some loc, true =>
    retain (.own loc)
    holding (.own loc) (body loc)
  | _, _ => raise line (.notInstance describe)

mutual

/-- Executes a statement. -/
def Stmt.exec (g : Guest) : Stmt → Run Completion
  | .assign name value _ => do
    let x ← value.eval g
    retain x
    Run.assign name x
    return .next x
  | .assignField object field value pos => do
    let target ← object.eval g
    holding target do
      holdingInstance target object.describe pos.line fun loc => do
        let x ← value.eval g
        retain x
        Run.assignField loc field x
        return .next x
  | .print args pos => do
    let texts ← Expr.textAll g pos.line args
    write pos.line (" ".intercalate texts ++ "\n")
    return .next .absent
  | .ret (some value) _ => return .ret (← value.eval g)
  | .ret none _ => return .ret .absent
  | .ifThen condition body _ => do
    let x ← condition.eval g
    holding x do
      if ← ask fun h => h.isTrue x then Stmt.execAll g body else return .next .absent
  | .ifElse condition body other _ => do
    let x ← condition.eval g
    holding x do
      if ← ask fun h => h.isTrue x then Stmt.execAll g body else Stmt.execAll g other
  | .define cls _ => do
    let x ← fresh (.cls cls)
    retain x
    Run.assign cls.name x
    return .next x
  | .eval e => return .next (← e.eval g)

/-- Executes statements in order, up to one that returns. -/
def Stmt.execAll (g : Guest) : List Stmt → Run Completion
  | [] => return .next .absent
  | s :: ss => do
    match ← s.exec g with
    | .next x =>
      release x
      Stmt.execAll g ss
    | .ret x => return .ret x

end

end Mython
