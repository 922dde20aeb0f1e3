import Mython.Run.Machine

namespace Mython

/-- A picture of a value. -/
inductive Snapshot where
  | absent
  | number (value : Number)
  | text (content : String)
  | truth (value : Bool)
  | cls (definition : Class)
  /-- An instance met for the first time. -/
  | inst (id : Nat) (cls : String) (fields : List (String × Snapshot))
  /-- An instance met before. -/
  | seen (id : Nat)

namespace Snapshot

/-- The fields of an instance as they are shown: in order of their names, and the way to itself
last, or not at all while it does lead there. -/
def shownFields (h : Heap) (loc : Loc) (fields : Bindings) : List (String × Handle) :=
  let (mine, others) := fields.sorted.partition fun entry => entry.1 == selfName
  others ++ mine.filter fun entry => !h.same entry.2 (.own loc)

/-- A picture of a value, given the instances met so far. Every level down meets another instance,
so one level more than there are places is enough. -/
def ofHandle (h : Heap) : Nat → Handle → StateM (Array Loc) Snapshot
  | 0, _ => pure absent
  | n + 1, x => do
    match x.loc?, h.object? x with
    | some loc, some (.inst c fields) =>
      match (← get).idxOf? loc with
      | some id => return seen id
      | none =>
        let id := (← get).size
        modify fun met => met.push loc
        let shown ← (shownFields h loc fields).mapM fun (name, y) => do
          return (name, ← ofHandle h n y)
        return inst id c.name shown
    | _, some (.number value) => return number value
    | _, some (.text content) => return text content
    | _, some (.truth value) => return truth value
    | _, some (.cls definition) => return cls definition
    | _, _ => return absent

end Snapshot

namespace Heap

/-- A picture of one value. -/
def snapshot (h : Heap) (x : Handle) : Snapshot :=
  (Snapshot.ofHandle h (h.size + 1) x #[]).1

/-- Pictures of named values in order of their names, with one numbering of instances. -/
def snapshots (h : Heap) (b : Bindings) : List (String × Snapshot) :=
  let all : StateM (Array Loc) (List (String × Snapshot)) :=
    b.sorted.mapM fun (name, x) => do
      return (name, ← Snapshot.ofHandle h (h.size + 1) x)
  (all #[]).1

end Heap

/-- Pictures of the names in scope. -/
def Machine.globals (m : Machine) : List (String × Snapshot) := m.heap.snapshots m.scope

end Mython
