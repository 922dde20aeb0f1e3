import Mython.Store.Kind

namespace Mython

namespace Fault

/-- What goes wrong when a program runs. -/
inductive Cause where
  /-- A name or field that is not there. -/
  | undefined (name : String)
  /-- A method that no class of the chain defines. -/
  | noMethod (cls method : String)
  /-- A call with too few or too many arguments. -/
  | arity (method : String) (expected got : Nat)
  /-- A field or method of something that is no instance. -/
  | notInstance (what : String)
  /-- An operator between values that it does not join. -/
  | operands (op : ArithOp) (left right : ValueKind)
  /-- The negation of something that is no number. -/
  | negated (operand : ValueKind)
  | divisionByZero
  /-- A result that no word holds. A negation counts as a subtraction. -/
  | overflow (op : ArithOp)
  /-- A call inside as many calls as are allowed. -/
  | depth (limit : Nat)
  /-- A text that the sink did not take. -/
  | output (message : String)
  deriving DecidableEq

/-- The wording of a cause. -/
def Cause.message : Cause → String
  | undefined name => "name `" ++ name ++ "` is not defined"
  | noMethod cls method => "`" ++ cls ++ "` has no method `" ++ method ++ "`"
  | arity method expected got =>
    "`" ++ method ++ "` expects " ++ Decimal.text expected ++ " argument(s), got " ++
      Decimal.text got
  | notInstance what => "`" ++ what ++ "` is not a class instance"
  | operands op left right =>
    "unsupported operand types for `" ++ op.symbol ++ "`: " ++ left.label ++ " and " ++ right.label
  | negated operand => "bad operand type for unary `-`: " ++ operand.label
  | divisionByZero => "division by zero"
  | overflow op => "integer overflow in `" ++ op.symbol ++ "`"
  | depth limit => "maximum call depth of " ++ Decimal.text limit ++ " exceeded"
  | output message => "output error: " ++ message

end Fault

/-- A cause and the line that shows it. -/
structure Fault where
  line : Nat
  cause : Fault.Cause
  deriving DecidableEq

/-- The full text of a fault. -/
def Fault.text (f : Fault) : String :=
  "[runtime] " ++ Decimal.text f.line ++ " — " ++ f.cause.message

end Mython
