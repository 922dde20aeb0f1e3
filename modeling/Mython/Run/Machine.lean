import Mython.Run.Fault
import Mython.Run.Sink

/-! A value that has been computed belongs to whoever asked for it, who lets go of it when done;
`holding` and `keeping` do so also when the run ends early in between. -/

namespace Mython

/-- The state of a run. -/
structure Machine where
  heap : Heap
  /-- The names that can be seen: those of the method being run, or those of the program. -/
  scope : Bindings
  sink : Sink
  /-- How many method calls are under way. -/
  depth : Nat

/-- Why a run stopped. -/
inductive Halt where
  /-- The program did something wrong. -/
  | fault (f : Fault)
  /-- The fuel was used up; nothing is said about the program. -/
  | exhausted
  deriving DecidableEq

/-- Runs: they change the state and give a result unless they halt. -/
abbrev Run := ExceptT Halt (StateM Machine)

/-- The state in front of a program. -/
def Machine.start (sink : Sink) : Machine := ⟨.empty, .empty, sink, 0⟩

namespace Run

/-- Halts with a fault. -/
def raise (line : Nat) (cause : Fault.Cause) : Run α := throw (.fault ⟨line, cause⟩)

/-- Asks something about the heap. -/
@[inline]
def ask (f : Heap → α) : Run α := fun m => (.ok (f m.heap), m)

/-- Changes the heap. -/
@[inline]
def change (f : Heap → Heap) : Run Unit := fun m => (.ok (), { m with heap := f m.heap })

/-- Becomes one more owner of what a handle owns. -/
def retain (x : Handle) : Run Unit := change fun h => h.retain x

/-- Lets go of a handle. -/
def release (x : Handle) : Run Unit := change fun h => h.release x

/-- Lets go of several handles. -/
def releaseAll (xs : List Handle) : Run Unit := change fun h => xs.foldl Heap.release h

/-- Stores an object and owns it. -/
def fresh (object : Object) : Run Handle := fun m =>
  let (loc, heap) := m.heap.alloc object
  (.ok (.own loc), { m with heap })

/-- Stores a new instance and owns it. -/
def freshInstance (cls : Class) : Run Handle := fun m =>
  let (loc, heap) := m.heap.allocInstance cls
  (.ok (.own loc), { m with heap })

/-- Runs `body` and lets go of a handle, however `body` ends. -/
@[inline]
def holding (x : Handle) (body : Run α) : Run α := fun m =>
  let (result, m) := body m
  (result, { m with heap := m.heap.release x })

/-- Runs `body` and lets go of a handle if `body` halts. -/
@[inline]
def keeping (x : Handle) (body : Run α) : Run α := fun m =>
  match body m with
  | (.ok a, m) => (.ok a, m)
  | (.error halt, m) => (.error halt, { m with heap := m.heap.release x })

/-- Gives a value to a name, letting go of the value it had. -/
def assign (name : String) (x : Handle) : Run Unit := fun m =>
  let old := (m.scope.get? name).getD .absent
  (.ok (), { m with heap := m.heap.release old, scope := m.scope.set name x })

/-- Gives values to names in turn. A later value of the same name replaces an earlier one. -/
def assignAll : List String → List Handle → Run Unit
  | name :: names, x :: xs => do
    assign name x
    assignAll names xs
  | _, _ => pure ()

/-- Gives a value to a field of the instance at a place, letting go of the value it had. -/
def assignField (loc : Loc) (name : String) (x : Handle) : Run Unit := change fun h =>
  let old := ((h.get? loc).bind Object.fields?).bind fun fields => fields.get? name
  (h.setField loc name x).release (old.getD .absent)

/-- Writes a text to the sink. -/
def write (line : Nat) (text : String) : Run Unit := fun m =>
  match m.sink.write? text with
  | some sink => (.ok (), { m with sink })
  | none => (.error (.fault ⟨line, .output m.sink.refusal⟩), m)

/-- Runs `body` one call deeper, in a scope of its own that goes when `body` ends. -/
@[inline]
def inScope (scope : Bindings) (body : Run α) : Run α := fun m =>
  let outer := m.scope
  let (result, m) := body { m with scope, depth := m.depth + 1 }
  (result, ⟨m.scope.handles.foldl Heap.release m.heap, outer, m.sink, m.depth - 1⟩)

end Run

end Mython
