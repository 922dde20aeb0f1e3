import Mython.Store.Kind

namespace Mython

/-- Whether two values are equal. -/
def Object.equal : Object → Object → Bool
  | .number a, .number b => a == b
  | .text a, .text b => a == b
  | .truth a, .truth b => a == b
  | _, _ => false

/-- Whether one value comes before another. -/
def Object.less : Object → Object → Bool
  | .number a, .number b => decide (a < b)
  | .text a, .text b => decide (a < b)
  | .truth a, .truth b => !a && b
  | _, _ => false

namespace Heap

/-- Whether two values are equal. -/
def equal (h : Heap) (x y : Handle) : Bool :=
  match h.object? x, h.object? y with
  | some a, some b => a.equal b
  | _, _ => false

/-- Whether one value comes before another. -/
def less (h : Heap) (x y : Handle) : Bool :=
  match h.object? x, h.object? y with
  | some a, some b => a.less b
  | _, _ => false

/-- Whether a comparison holds. All six come from `equal` and `less`. -/
def holds (h : Heap) (relation : Relation) (x y : Handle) : Bool :=
  match relation with
  | .equal => h.equal x y
  | .notEqual => !h.equal x y
  | .less => h.less x y
  | .greater => h.less y x
  | .atMost => !h.less y x
  | .atLeast => !h.less x y

end Heap

end Mython
