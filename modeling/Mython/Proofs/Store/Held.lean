import Mathlib.Algebra.BigOperators.Group.Multiset.Basic
import Mython.Store.Handle

namespace Mython

namespace Handle

/-- The places that a handle keeps occupied, each as often as it does. -/
def owns : Handle → Multiset Loc
  | own loc => {loc}
  | _ => 0

@[simp]
theorem owns_absent : Handle.absent.owns = 0 := rfl

@[simp]
theorem owns_own (loc : Loc) : (Handle.own loc).owns = {loc} := rfl

@[simp]
theorem owns_share (loc : Loc) : (Handle.share loc).owns = 0 := rfl

/-- The places that several handles keep occupied. -/
def ownsAll (xs : List Handle) : Multiset Loc := (xs.map owns).sum

@[simp]
theorem ownsAll_cons (x : Handle) (xs : List Handle) : ownsAll (x :: xs) = x.owns + ownsAll xs := by
  simp [ownsAll]

/-- A handle as something that is held until it is let go of. There is nothing to hold of an absent
one. -/
def held : Handle → Multiset Handle
  | absent => 0
  | own loc => {own loc}
  | share loc => {share loc}

@[simp]
theorem held_absent : Handle.absent.held = 0 := rfl

/-- Several handles that are held. -/
def heldAll (xs : List Handle) : Multiset Handle := (xs.map held).sum

@[simp]
theorem heldAll_nil : heldAll [] = 0 := rfl

@[simp]
theorem heldAll_cons (x : Handle) (xs : List Handle) : heldAll (x :: xs) = x.held + heldAll xs := by
  simp [heldAll]

theorem mem_held {x y : Handle} : y ∈ x.held ↔ y = x ∧ x ≠ .absent := by
  cases x <;> simp [held]

theorem mem_heldAll {xs : List Handle} {x : Handle} :
    x ∈ heldAll xs ↔ x ∈ xs ∧ x ≠ .absent := by
  induction xs with
  | nil => simp
  | cons y ys ih =>
    rw [heldAll_cons, Multiset.mem_add, mem_held, ih, List.mem_cons]
    constructor
    · rintro (⟨rfl, hx⟩ | ⟨hx, hne⟩)
      · exact ⟨Or.inl rfl, hx⟩
      · exact ⟨Or.inr hx, hne⟩
    · rintro ⟨rfl | hx, hne⟩
      · exact Or.inl ⟨rfl, hne⟩
      · exact Or.inr ⟨hx, hne⟩

theorem held_mine (x : Handle) (rest : Multiset Handle) : x.held ⊆ x.held + rest :=
  Multiset.subset_of_le (Multiset.le_add_right _ _)

theorem held_besides {x : Handle} {rest : Multiset Handle} (mine : Multiset Handle)
    (h : x.held ⊆ rest) : x.held ⊆ mine + rest :=
  Multiset.Subset.trans h (Multiset.subset_of_le (Multiset.le_add_left _ _))

theorem held_among {x : Handle} {xs : List Handle} (hx : x ∈ xs) (rest : Multiset Handle) :
    x.held ⊆ heldAll xs + rest := by
  intro y hy
  obtain ⟨rfl, hne⟩ := mem_held.1 hy
  exact Multiset.mem_add.2 (Or.inl (mem_heldAll.2 ⟨hx, hne⟩))

/-- The places that are kept occupied by what is held. -/
def places (held : Multiset Handle) : Multiset Loc := (held.map owns).sum

@[simp]
theorem places_zero : places 0 = 0 := rfl

@[simp]
theorem places_add (s t : Multiset Handle) : places (s + t) = places s + places t := by
  simp [places]

@[simp]
theorem places_held (x : Handle) : places x.held = x.owns := by
  cases x <;> simp [places, held]

theorem mem_places {held : Multiset Handle} {loc : Loc} : loc ∈ places held ↔ .own loc ∈ held := by
  induction held using Multiset.induction with
  | empty => simp
  | cons x held ih =>
    have hcons : places (x ::ₘ held) = x.owns + places held := by simp [places]
    rw [hcons, Multiset.mem_add, Multiset.mem_cons, ih]
    cases x <;> simp

@[simp]
theorem places_heldAll (xs : List Handle) : places (heldAll xs) = ownsAll xs := by
  induction xs with
  | nil => rfl
  | cons x xs ih => simp [ih]

theorem mem_ownsAll {xs : List Handle} {loc : Loc} : loc ∈ ownsAll xs ↔ .own loc ∈ xs := by
  rw [← places_heldAll, mem_places, mem_heldAll]
  simp

theorem coe_filterMap_owned? (xs : List Handle) :
    ((xs.filterMap owned? : List Loc) : Multiset Loc) = ownsAll xs := by
  induction xs with
  | nil => rfl
  | cons x xs ih =>
    cases x with
    | own loc =>
      rw [ownsAll_cons, ← ih]
      rfl
    | absent =>
      rw [ownsAll_cons, ← ih, owns_absent, zero_add]
      rfl
    | share loc =>
      rw [ownsAll_cons, ← ih, owns_share, zero_add]
      rfl

end Handle

namespace Bindings

/-- What is bound to a name, or nothing. -/
def old (b : Bindings) (name : String) : Handle := (b.get? name).getD .absent

theorem heldAll_put (name : String) (x : Handle) (entries : List (String × Handle)) :
    Handle.heldAll ((put name x entries).map (·.2)) + ((entries.lookup name).getD .absent).held =
      Handle.heldAll (entries.map (·.2)) + x.held := by
  induction entries with
  | nil => simp [put]
  | cons entry rest ih =>
    obtain ⟨other, y⟩ := entry
    by_cases hsame : other = name
    · simp [put, hsame, add_comm, add_left_comm]
    · have hapart : (name == other) = false := beq_false_of_ne (Ne.symm hsame)
      simp only [put, hsame, if_false, List.map_cons, Handle.heldAll_cons, List.lookup_cons, hapart]
      rw [add_assoc, ih, add_assoc]

/-- Binding a name exchanges what it held for what it holds. -/
theorem heldAll_set (b : Bindings) (name : String) (x : Handle) :
    Handle.heldAll (b.set name x).handles + (b.old name).held =
      Handle.heldAll b.handles + x.held :=
  heldAll_put name x b.entries

theorem ownsAll_set (b : Bindings) (name : String) (x : Handle) :
    Handle.ownsAll (b.set name x).handles + (b.old name).owns =
      Handle.ownsAll b.handles + x.owns := by
  simpa using congrArg Handle.places (b.heldAll_set name x)

theorem mem_of_get? {b : Bindings} {name : String} {x : Handle} (h : b.get? name = some x) :
    (name, x) ∈ b.entries := by
  obtain ⟨entries⟩ := b
  change entries.lookup name = some x at h
  show (name, x) ∈ entries
  induction entries with
  | nil => cases h
  | cons entry rest ih =>
    obtain ⟨other, y⟩ := entry
    rw [List.lookup_cons] at h
    cases hsame : name == other with
    | true =>
      rw [hsame] at h
      cases h
      rw [eq_of_beq hsame]
      exact List.mem_cons_self
    | false =>
      rw [hsame] at h
      exact List.mem_cons_of_mem _ (ih h)

theorem mem_handles_of_get? {b : Bindings} {name : String} {x : Handle} (h : b.get? name = some x) :
    x ∈ b.handles :=
  List.mem_map_of_mem (mem_of_get? h)

end Bindings

end Mython
