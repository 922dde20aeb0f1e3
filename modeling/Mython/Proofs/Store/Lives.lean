import Mython.Proofs.Store.Lasting

namespace Mython

/-- An instance as it is made, at a place. -/
def Object.newborn (loc : Loc) (c : Class) : Object := .inst c ⟨[(selfName, .share loc)]⟩

/-- What becomes of an object. Fields may be added, but are changed only where that is said. -/
def Object.Lives (changed : String → Prop) : Object → Object → Prop
  | .inst c fields, .inst c' fields' => c' = c ∧ ∀ name,
    (fields'.get? name = fields.get? name ∨ changed name) ∧
      ((fields.get? name).isSome = true → (fields'.get? name).isSome = true)
  | object, object' => object' = object

namespace Object.Lives

variable {changed changed' : String → Prop} {object object' object'' : Object}

theorem refl (object : Object) : object.Lives changed object := by
  cases object with
  | inst c fields => exact ⟨rfl, fun _ => ⟨Or.inl rfl, id⟩⟩
  | _ => rfl

theorem mono (h : object.Lives changed object') (hc : ∀ name, changed name → changed' name) :
    object.Lives changed' object' := by
  cases object with
  | inst c fields =>
    cases object' with
    | inst c' fields' =>
      exact ⟨h.1, fun name => ⟨(h.2 name).1.imp id (hc name), (h.2 name).2⟩⟩
    | _ => cases h
  | _ => exact h

/-- What has no fields has been the same all along. -/
theorem eq_of_plain (h : object.Lives changed object') (hp : object'.fields? = none) :
    object' = object := by
  cases object with
  | inst c fields =>
    cases object' with
    | inst => cases hp
    | _ => cases h
  | _ => exact h

/-- An instance has been one of the same class all along. -/
theorem inst_iff {c : Class} {fields : Bindings} :
    object.Lives changed (.inst c fields) ↔
      ∃ before, object = .inst c before ∧
        (Object.inst c before).Lives changed (.inst c fields) := by
  constructor
  · intro h
    cases object with
    | inst c' before =>
      obtain ⟨rfl, -⟩ := id h
      exact ⟨before, rfl, h⟩
    | _ => cases h
  · rintro ⟨before, rfl, h⟩
    exact h

theorem trans (h : object.Lives changed object') (h' : object'.Lives changed object'') :
    object.Lives changed object'' := by
  cases object'' with
  | inst c fields'' =>
    obtain ⟨fields', rfl, h'⟩ := inst_iff.1 h'
    obtain ⟨fields, rfl, h⟩ := inst_iff.1 h
    refine ⟨rfl, fun name => ⟨?_, fun hsome => (h'.2 name).2 ((h.2 name).2 hsome)⟩⟩
    rcases (h'.2 name).1 with heq' | hc
    · exact (h.2 name).1.imp heq'.trans id
    · exact Or.inr hc
  | _ =>
    obtain rfl := eq_of_plain h' rfl
    exact h

/-- Binding a field changes that field only, and removes none. -/
theorem bound (name : String) (x : Handle) (object : Object) :
    object.Lives (· = name) (object.bound name x) := by
  cases object with
  | inst c fields =>
    refine ⟨rfl, fun other => ?_⟩
    by_cases hsame : other = name
    · subst hsame
      exact ⟨Or.inr rfl, fun _ => by rw [Bindings.get?_set_self]; rfl⟩
    · rw [Bindings.get?_set_of_ne fields hsame]
      exact ⟨Or.inl rfl, id⟩
  | _ => rfl

end Object.Lives

/-- What becomes of a heap. Objects at old places were there before, and new instances have been
made since; all have lived on from there. -/
structure Heap.Lives (changed : Loc → String → Prop) (h h' : Heap) : Prop where
  size : h.size ≤ h'.size
  old : ∀ loc object', loc < h.size → h'.get? loc = some object' →
    ∃ object, h.get? loc = some object ∧ object.Lives (changed loc) object'
  new : ∀ loc c fields, h.size ≤ loc → h'.get? loc = some (.inst c fields) →
    (Object.newborn loc c).Lives (changed loc) (.inst c fields)

namespace Heap.Lives

variable {changed changed' : Loc → String → Prop} {h h' h'' : Heap}

theorem mono (hl : h.Lives changed h') (hc : ∀ loc name, changed loc name → changed' loc name) :
    h.Lives changed' h' where
  size := hl.size
  old loc object' hloc hget := by
    obtain ⟨object, hobject, hlives⟩ := hl.old loc object' hloc hget
    exact ⟨object, hobject, hlives.mono (hc loc)⟩
  new loc c fields hloc hget := (hl.new loc c fields hloc hget).mono (hc loc)

/-- A heap without anything new in it, whose objects were all there before. -/
theorem of_get? (hsize : h'.size = h.size)
    (hget : ∀ loc object, h'.get? loc = some object → h.get? loc = some object) :
    h.Lives changed h' where
  size := Nat.le_of_eq hsize.symm
  old loc object' _ hobject := ⟨object', hget loc object' hobject, .refl object'⟩
  new loc c fields hloc hobject := by
    have hlt := lt_size_of_get? hobject
    rw [hsize] at hlt
    exact absurd hlt (Nat.not_lt.2 hloc)

theorem refl (h : Heap) : h.Lives changed h := of_get? rfl fun _ _ hget => hget

theorem trans (hl : h.Lives changed h') (hl' : h'.Lives changed h'') : h.Lives changed h'' where
  size := hl.size.trans hl'.size
  old loc object'' hloc hget := by
    obtain ⟨object', hobject', hlives'⟩ :=
      hl'.old loc object'' (Nat.lt_of_lt_of_le hloc hl.size) hget
    obtain ⟨object, hobject, hlives⟩ := hl.old loc object' hloc hobject'
    exact ⟨object, hobject, hlives.trans hlives'⟩
  new loc c fields'' hloc hget := by
    by_cases hold : loc < h'.size
    · obtain ⟨object', hobject', hlives'⟩ := hl'.old loc _ hold hget
      obtain ⟨fields', rfl, hlives'⟩ := Object.Lives.inst_iff.1 hlives'
      exact (hl.new loc c fields' hloc hobject').trans hlives'
    · exact hl'.new loc c fields'' (Nat.not_lt.1 hold) hget

theorem retain (h : Heap) (x : Handle) : h.Lives changed (h.retain x) := by
  apply of_get? (size_retain h x)
  intro loc object hget
  rwa [get?_retain] at hget

theorem release (h : Heap) (x : Handle) : h.Lives changed (h.release x) :=
  of_get? (size_release h x) fun _ _ => get?_of_release

theorem releaseAll (h : Heap) (xs : List Handle) :
    h.Lives changed (xs.foldl Heap.release h) := by
  induction xs generalizing h with
  | nil => exact refl h
  | cons x xs ih => exact (release h x).trans (ih (h.release x))

/-- A new object, if an instance then one as it is made. -/
theorem alloc (h : Heap) {object : Object}
    (ho : ∀ c fields, object = .inst c fields → object = .newborn h.size c) :
    h.Lives changed (h.alloc object).2 where
  size := by
    rw [size_alloc]
    exact Nat.le_succ _
  old loc object' hloc hget := by
    rw [get?_alloc, if_neg (Nat.ne_of_lt hloc)] at hget
    exact ⟨object', hget, .refl object'⟩
  new loc c fields hloc hget := by
    rw [get?_alloc] at hget
    split at hget
    · next hnew =>
      obtain rfl := Option.some.inj hget
      rw [hnew, ← ho c fields rfl]
      exact .refl _
    · exact absurd (lt_size_of_get? hget) (Nat.not_lt.2 hloc)

theorem alloc_plain (h : Heap) {object : Object} (ho : object.fields? = none) :
    h.Lives changed (h.alloc object).2 := by
  apply alloc
  rintro c fields rfl
  cases ho

theorem allocInstance (h : Heap) (c : Class) : h.Lives changed (h.allocInstance c).2 := by
  apply alloc
  rintro c' fields ⟨⟩
  rfl

theorem setField (h : Heap) (loc : Loc) (name : String) (x : Handle) :
    h.Lives (fun place field => place = loc ∧ field = name) (h.setField loc name x) where
  size := by
    rw [Heap.setField, size_adjust]
  old place object' _ hget := by
    rw [get?_setField_bound] at hget
    split at hget
    · next hsame =>
      subst hsame
      obtain ⟨object, hobject, rfl⟩ := Option.map_eq_some_iff.1 hget
      exact ⟨object, hobject, (Object.Lives.bound name x object).mono fun _ heq => ⟨rfl, heq⟩⟩
    · exact ⟨object', hget, .refl object'⟩
  new place c fields hloc hget := by
    have hlt := lt_size_of_get? hget
    rw [Heap.setField, size_adjust] at hlt
    exact absurd hlt (Nat.not_lt.2 hloc)

end Heap.Lives

end Mython
