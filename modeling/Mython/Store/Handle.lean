import Mython.Program.Basic

namespace Mython

/-- Where an object is stored. -/
abbrev Loc := Nat

/-- A value of the language: no object, or a way to one. -/
inductive Handle where
  | absent
  | own (loc : Loc)
  | share (loc : Loc)
  deriving DecidableEq

namespace Handle

/-- The place that a handle leads to, whether or not an object is still there. -/
def loc? : Handle → Option Loc
  | absent => none
  | own loc | share loc => some loc

/-- The place that a handle keeps occupied. -/
def owned? : Handle → Option Loc
  | own loc => some loc
  | _ => none

end Handle

/-- Named values: a scope, or the fields of an instance. Each name is bound at most once. -/
structure Bindings where
  entries : List (String × Handle)

namespace Bindings

/-- No names. -/
def empty : Bindings := ⟨[]⟩

/-- The value bound to a name. -/
def get? (b : Bindings) (name : String) : Option Handle := b.entries.lookup name

/-- Binds a name in a list of entries, in place of what it was bound to. -/
def put (name : String) (x : Handle) : List (String × Handle) → List (String × Handle)
  | [] => [(name, x)]
  | (other, y) :: rest =>
    if other = name then (name, x) :: rest else (other, y) :: put name x rest

/-- Binds a name, in place of what it was bound to. -/
def set (b : Bindings) (name : String) (x : Handle) : Bindings := ⟨put name x b.entries⟩

theorem lookup_put_self (name : String) (x : Handle) (entries : List (String × Handle)) :
    (put name x entries).lookup name = some x := by
  induction entries with
  | nil => simp [put]
  | cons entry rest ih =>
    rcases entry with ⟨other, y⟩
    by_cases same : other = name
    · simp [put, same]
    · have apart : (name == other) = false := beq_false_of_ne (Ne.symm same)
      simpa [put, List.lookup_cons, same, apart] using ih

theorem lookup_put_of_ne {name other : String} (apart : other ≠ name) (x : Handle)
    (entries : List (String × Handle)) :
    (put name x entries).lookup other = entries.lookup other := by
  have unlike : (other == name) = false := beq_false_of_ne apart
  induction entries with
  | nil => simp [put, apart]
  | cons entry rest ih =>
    rcases entry with ⟨third, y⟩
    by_cases same : third = name
    · simp [put, List.lookup_cons, same, unlike]
    · by_cases found : other = third
      · simp [put, same, found]
      · have further : (other == third) = false := beq_false_of_ne found
        simpa [put, List.lookup_cons, same, further] using ih

@[simp]
theorem get?_set_self (b : Bindings) (name : String) (x : Handle) :
    (b.set name x).get? name = some x :=
  lookup_put_self name x b.entries

theorem get?_set_of_ne (b : Bindings) {name other : String} (apart : other ≠ name) (x : Handle) :
    (b.set name x).get? other = b.get? other :=
  lookup_put_of_ne apart x b.entries

/-- Forgets a name. -/
def erase (b : Bindings) (name : String) : Bindings :=
  ⟨b.entries.filter fun entry => entry.1 != name⟩

/-- The values bound, one for each name. -/
def handles (b : Bindings) : List Handle := b.entries.map (·.2)

/-- The entries in order of their names. -/
def sorted (b : Bindings) : List (String × Handle) :=
  b.entries.mergeSort fun a b => decide (a.1 ≤ b.1)

end Bindings

/-- What is stored at a place. Only the fields of an instance ever change. -/
inductive Object where
  | number (value : Number)
  | text (content : String)
  | truth (value : Bool)
  | cls (definition : Class)
  | inst (cls : Class) (fields : Bindings)

namespace Object

/-- The fields of an instance; other objects have none. -/
def fields? : Object → Option Bindings
  | inst _ fields => some fields
  | _ => none

/-- The class of an instance. -/
def class? : Object → Option Class
  | inst c _ => some c
  | _ => none

/-- The places that an object keeps occupied through its fields. -/
def owned : Object → List Loc
  | inst _ fields => fields.handles.filterMap Handle.owned?
  | _ => []

end Object

/-- The name under which an instance knows itself. -/
def selfName : String := "self"

end Mython
