import Mython.Store.Handle

/-! Objects and how many handles own each of them. Owners in a circle keep each other. A place is
never used twice, so a heap that never empties a place differs from one that does only in what
expired handles lead to. -/

namespace Mython

/-- An object and the number of handles that own it. -/
structure Cell where
  owners : Nat
  object : Object

/-- Places, each with an object or empty for good. -/
structure Heap where
  cells : Array (Option Cell)
  /-- Whether a place is emptied when its last owner goes. -/
  reclaims : Bool

namespace Heap

/-- No places yet. -/
def empty : Heap := ⟨#[], true⟩

/-- How many places there are, empty ones too. -/
def size (h : Heap) : Nat := h.cells.size

/-- What is stored at a place. -/
def cell? (h : Heap) (loc : Loc) : Option Cell := h.cells[loc]?.join

/-- The object at a place. -/
def get? (h : Heap) (loc : Loc) : Option Object := (h.cell? loc).map (·.object)

/-- The object that a handle leads to, if it is still there. -/
def object? (h : Heap) (x : Handle) : Option Object := x.loc? >>= h.get?

/-- Changes what is stored at a place that is not empty. -/
def adjust (h : Heap) (loc : Loc) (f : Cell → Cell) : Heap :=
  { h with cells := h.cells.modify loc fun cell => cell.map f }

/-- Stores an object at a new place, with one owner. -/
def alloc (h : Heap) (object : Object) : Loc × Heap :=
  (h.size, { h with cells := h.cells.push (some ⟨1, object⟩) })

/-- Stores a new instance. It has one field, through which it shares itself. -/
def allocInstance (h : Heap) (cls : Class) : Loc × Heap :=
  h.alloc (.inst cls ⟨[(selfName, .share h.size)]⟩)

/-- One more owner of what a handle owns. -/
def retain (h : Heap) : Handle → Heap
  | .own loc => h.adjust loc fun cell => { cell with owners := cell.owners + 1 }
  | _ => h

/-- Empties a place. -/
def clear (h : Heap) (loc : Loc) : Heap := { h with cells := h.cells.setIfInBounds loc none }

/-- One owner less at a place. With the last one the place is emptied, and the places that its
object owned lose an owner in turn. Every step down empties a place, so `size` steps reach the
bottom. -/
def releaseWithin : Nat → Heap → Loc → Heap
  | 0, h, _ => h
  | n + 1, h, loc =>
    match h.cell? loc with
    | none => h
    | some cell =>
      if cell.owners ≤ 1 then
        cell.object.owned.foldl (releaseWithin n) (h.clear loc)
      else h.adjust loc fun cell => { cell with owners := cell.owners - 1 }

/-- One owner less of what a handle owns. -/
def release (h : Heap) : Handle → Heap
  | .own loc => if h.reclaims then h.releaseWithin h.size loc else h
  | _ => h

/-- Binds a field of the instance at a place, in place of what it was bound to. -/
def setField (h : Heap) (loc : Loc) (name : String) (x : Handle) : Heap :=
  h.adjust loc fun cell =>
    match cell.object with
    | .inst cls fields => { cell with object := .inst cls (fields.set name x) }
    | _ => cell

theorem object?_eq_get? {h : Heap} {x : Handle} {loc : Loc} (hloc : x.loc? = some loc) :
    h.object? x = h.get? loc := by
  rw [object?, hloc]
  rfl

@[simp]
theorem size_adjust (h : Heap) (loc : Loc) (f : Cell → Cell) : (h.adjust loc f).size = h.size := by
  simp [size, adjust]

@[simp]
theorem size_clear (h : Heap) (loc : Loc) : (h.clear loc).size = h.size := by
  simp [size, clear]

@[simp]
theorem size_alloc (h : Heap) (object : Object) : (h.alloc object).2.size = h.size + 1 := by
  simp [size, alloc]

/-- A change at one place is seen there and nowhere else. -/
theorem cell?_adjust (h : Heap) (loc other : Loc) (f : Cell → Cell) :
    (h.adjust loc f).cell? other =
      if loc = other then (h.cell? other).map f else h.cell? other := by
  unfold cell? adjust
  rw [Array.getElem?_modify]
  by_cases same : loc = other
  · rw [if_pos same, if_pos same]
    rcases h.cells[other]? with _ | cell
    · rfl
    · rcases cell with _ | cell <;> rfl
  · rw [if_neg same, if_neg same]

/-- A place that is emptied is empty, and the others are as they were. -/
theorem cell?_clear (h : Heap) (loc other : Loc) :
    (h.clear loc).cell? other = if loc = other then none else h.cell? other := by
  unfold cell? clear
  rw [Array.getElem?_setIfInBounds]
  by_cases same : loc = other
  · rw [if_pos same, if_pos same]
    by_cases inside : loc < h.cells.size
    · rw [if_pos inside]; rfl
    · rw [if_neg inside]; rfl
  · rw [if_neg same, if_neg same]

/-- A new place holds its object with one owner, and the others are as they were. -/
theorem cell?_alloc (h : Heap) (object : Object) (other : Loc) :
    (h.alloc object).2.cell? other =
      if other = h.size then some ⟨1, object⟩ else h.cell? other := by
  unfold cell? alloc size
  rw [Array.getElem?_push]
  by_cases same : other = h.cells.size
  · rw [if_pos same, if_pos same]; rfl
  · rw [if_neg same, if_neg same]

end Heap

end Mython
