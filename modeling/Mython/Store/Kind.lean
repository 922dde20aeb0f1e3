import Mython.Store.Heap
import Mython.Text.Address
import Mython.Text.Quoted

namespace Mython

/-- The kinds of values. -/
inductive ValueKind where
  | none
  | number
  | text
  | truth
  | cls
  | inst
  deriving DecidableEq

/-- How a kind is named in messages. -/
def ValueKind.label : ValueKind → String
  | none => "None"
  | number => "Number"
  | text => "String"
  | truth => "Bool"
  | cls => "Class"
  | inst => "Instance"

/-- The text of the absent value. -/
def absentText : String := "None"

namespace Class

/-- The make-up of a class: its name, its own methods and the class it extends. -/
def debug (c : Class) : String :=
  let parent := match c.parent with
    | some p => "Some(" ++ Text.quoted p.name ++ ")"
    | none => "None"
  "Class \x7b name: " ++ Text.quoted c.name ++ ", methods: [" ++
    ", ".intercalate (c.methodNames.map Text.quoted) ++ "], parent: " ++ parent ++ " \x7d"

end Class

namespace Object

/-- The kind of an object. -/
def kind : Object → ValueKind
  | number _ => .number
  | text _ => .text
  | truth _ => .truth
  | cls _ => .cls
  | inst _ _ => .inst

/-- Whether an object counts as true: all do but zero, the empty text and `False`. -/
def isTrue : Object → Bool
  | number value => value != 0
  | text content => !content.isEmpty
  | truth value => value
  | cls _ | inst _ _ => true

/-- The text of an object at a place when its class does not say otherwise. -/
def plainText (loc : Loc) : Object → String
  | number value => value.text
  | text content => content
  | truth value => if value then "True" else "False"
  | cls definition => "<class '" ++ definition.name ++ "'>"
  | inst c _ => "<" ++ c.name ++ " object at " ++ Address.text loc ++ ">"

/-- The make-up of an object. Fields are given by name only, and the way to itself is left out. -/
def debug : Object → String
  | number value => "Number(" ++ value.text ++ ")"
  | text content => "String(" ++ Text.quoted content ++ ")"
  | truth value => "Bool(" ++ (if value then "true" else "false") ++ ")"
  | cls definition => "Class(" ++ definition.debug ++ ")"
  | inst c fields =>
    let names := (fields.sorted.map (·.1)).filter (· != selfName)
    "Instance(ClassInstance \x7b class: " ++ Text.quoted c.name ++ ", fields: [" ++
      ", ".intercalate (names.map Text.quoted) ++ "] \x7d)"

end Object

namespace Heap

/-- The kind of a value. -/
def kind (h : Heap) (x : Handle) : ValueKind := ((h.object? x).map Object.kind).getD .none

/-- Whether a value counts as true. -/
def isTrue (h : Heap) (x : Handle) : Bool := ((h.object? x).map Object.isTrue).getD false

/-- The number that a value is. -/
def number? (h : Heap) (x : Handle) : Option Number :=
  match h.object? x with
  | some (.number value) => some value
  | _ => none

/-- The text that a value is. -/
def text? (h : Heap) (x : Handle) : Option String :=
  match h.object? x with
  | some (.text content) => some content
  | _ => none

/-- Whether a value is an instance. -/
def isInstance (h : Heap) (x : Handle) : Bool := h.kind x = .inst

/-- Whether two values are one object. The absent value is not, not even with itself. -/
def same (h : Heap) (x y : Handle) : Bool :=
  (h.object? x).isSome && (h.object? y).isSome && x.loc? == y.loc?

/-- The text of a value when its class does not say otherwise. -/
def plainText? (h : Heap) (x : Handle) : Option String := do
  let loc ← x.loc?
  let object ← h.get? loc
  return object.plainText loc

/-- The make-up of a value. -/
def debug (h : Heap) (x : Handle) : String := ((h.object? x).map Object.debug).getD absentText

/-- The method that a value offers for a call with `arity` arguments, if it is an instance. -/
def accepting? (h : Heap) (x : Handle) (name : String) (arity : Nat) : Option Method := do
  let object ← h.object? x
  let cls ← object.class?
  cls.accepting? name arity

end Heap

end Mython
