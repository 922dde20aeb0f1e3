import Mython.Proofs.Store.Change
import Mython.Proofs.Store.Ownership

namespace Mython

theorem Object.eq_inst_of_kind {object : Object} (h : object.kind = .inst) :
    ∃ cls fields, object = .inst cls fields := by
  cases object with
  | inst cls fields => exact ⟨cls, fields, rfl⟩
  | _ => cases h

/-- An instance with a field bound; other objects have none. -/
def Object.bound (name : String) (x : Handle) : Object → Object
  | inst c fields => inst c (fields.set name x)
  | object => object

namespace Heap

theorem lt_size_of_get? {h : Heap} {loc : Loc} {object : Object} (hget : h.get? loc = some object) :
    loc < h.size := by
  obtain ⟨cell, hcell, -⟩ := get?_eq_some.1 hget
  exact lt_size_of_cell? hcell

/-- A field of an instance that is there holds a handle. -/
def Stores (h : Heap) (x : Handle) : Prop :=
  ∃ loc cls fields, h.get? loc = some (.inst cls fields) ∧ x ∈ fields.handles

/-- A handle that shares leads to a place that has been used, and to nothing but an instance. -/
def Known (h : Heap) : Handle → Prop
  | .share loc => loc < h.size ∧ ∀ object, h.get? loc = some object → object.kind = .inst
  | _ => True

/-- A handle that can be held once more: what it owns is there, and what it shares is known. -/
structure Usable (h : Heap) (x : Handle) : Prop where
  known : h.Known x
  live : ∀ loc, x = .own loc → (h.get? loc).isSome = true

/-- The account of a heap with the handles that are held outside. -/
structure Settled (h : Heap) (outside : Multiset Handle) : Prop where
  balanced : h.Balanced (Handle.places outside)
  known : ∀ x ∈ outside, h.Known x
  stored : ∀ x, h.Stores x → h.Known x

theorem usable_absent (h : Heap) : h.Usable .absent :=
  ⟨trivial, by rintro loc ⟨⟩⟩

theorem usable_own {h : Heap} {loc : Loc} (hlive : (h.get? loc).isSome = true) :
    h.Usable (.own loc) := by
  refine ⟨trivial, ?_⟩
  rintro place ⟨⟩
  exact hlive

theorem Known.grows {h h' : Heap} {x : Handle} (hx : h.Known x) (hg : h.Grows h') : h'.Known x := by
  cases x with
  | share loc =>
    obtain ⟨hloc, hkind⟩ := hx
    refine ⟨Nat.lt_of_lt_of_le hloc hg.size, ?_⟩
    intro object' hget'
    obtain ⟨object, hget, hsame⟩ := hg.kept loc object' hloc hget'
    rw [← hsame]
    exact hkind object hget
  | absent => trivial
  | own loc => trivial

/-- Letting go takes things away and changes nothing else. -/
theorem get?_of_releaseWithin (n : Nat) {h : Heap} {loc place : Loc} {object : Object}
    (hget : (releaseWithin n h loc).get? place = some object) : h.get? place = some object := by
  have hsteps := @releaseWithin_of_steps
    (fun h h' => h'.get? place = some object → h.get? place = some object)
    (fun _ hget => hget) (fun hfirst hnext hget => hfirst (hnext hget))
  refine hsteps ?_ ?_ n h loc hget
  · intro h loc hget
    rw [get?, cell?_clear] at hget
    split at hget
    · cases hget
    · exact hget
  · intro h loc hget
    rw [get?, cell?_adjust] at hget
    split at hget
    · rw [get?, ← hget]
      cases h.cell? place <;> rfl
    · exact hget

theorem get?_of_release {h : Heap} {x : Handle} {place : Loc} {object : Object}
    (hget : (h.release x).get? place = some object) : h.get? place = some object := by
  cases x with
  | own loc =>
    rw [release] at hget
    split at hget
    · exact get?_of_releaseWithin h.size hget
    · exact hget
  | absent => exact hget
  | share loc => exact hget

theorem get?_alloc (h : Heap) (object : Object) (place : Loc) :
    (h.alloc object).2.get? place = if place = h.size then some object else h.get? place := by
  rw [get?, cell?_alloc]
  split <;> rfl

/-- Binding a field is seen at its place only, and only if an instance is there. -/
theorem get?_setField_bound (h : Heap) (loc : Loc) (name : String) (x : Handle) (place : Loc) :
    (h.setField loc name x).get? place =
      if loc = place then (h.get? place).map (Object.bound name x) else h.get? place := by
  rw [get?, setField, cell?_adjust]
  split
  · rw [get?]
    cases h.cell? place with
    | none => rfl
    | some cell =>
      obtain ⟨owners, object⟩ := cell
      cases object <;> rfl
  · rfl

theorem get?_setField {h : Heap} {loc place : Loc} {cls : Class} {fields : Bindings} (name : String)
    (x : Handle) (hinst : h.get? loc = some (.inst cls fields)) :
    (h.setField loc name x).get? place =
      if loc = place then some (.inst cls (fields.set name x)) else h.get? place := by
  rw [get?_setField_bound]
  split
  · next hsame =>
    rw [← hsame, hinst]
    rfl
  · rfl

/-- What a new heap knows if it stores nothing that was not stored or held. -/
theorem Settled.of_change {h h' : Heap} {outside outside' : Multiset Handle}
    (hs : h.Settled outside) (hc : h.Change h') (hb : h'.Balanced (Handle.places outside'))
    (hout : ∀ x ∈ outside', h'.Known x ∨ x ∈ outside ∨ h.Stores x)
    (hin : ∀ x, h'.Stores x → h'.Known x ∨ x ∈ outside ∨ h.Stores x) : h'.Settled outside' := by
  have hold : ∀ x, h'.Known x ∨ x ∈ outside ∨ h.Stores x → h'.Known x := by
    rintro x (hx | hx | hx)
    · exact hx
    · exact (hs.known x hx).grows hc.grows
    · exact (hs.stored x hx).grows hc.grows
  exact ⟨hb, fun x hx => hold x (hout x hx), fun x hx => hold x (hin x hx)⟩

theorem settled_empty : Heap.empty.Settled 0 := by
  have hnone : ∀ loc, Heap.empty.cell? loc = none := fun loc => cell?_of_size_le (Nat.zero_le loc)
  refine ⟨⟨rfl, ?_, ?_⟩, ?_, ?_⟩
  · intro loc
    rw [owners, hnone]
    rfl
  · intro loc cell hcell
    rw [hnone] at hcell
    cases hcell
  · intro x hx
    exact absurd hx (Multiset.notMem_zero x)
  · rintro x ⟨loc, cls, fields, hget, -⟩
    rw [get?, hnone] at hget
    cases hget

namespace Settled

variable {h : Heap} {outside rest : Multiset Handle}

/-- What is there is what is owned from outside or by a field of an instance that is there. -/
theorem isSome_iff (hs : h.Settled outside) (loc : Loc) :
    (h.get? loc).isSome = true ↔ .own loc ∈ outside ∨ h.Stores (.own loc) := by
  rw [hs.balanced.isSome_iff, Multiset.mem_add, Handle.mem_places, Heap.stored, Multiset.mem_sum]
  refine or_congr_right ?_
  constructor
  · rintro ⟨place, -, hmem⟩
    rw [ownedAt] at hmem
    cases hget : h.get? place with
    | none => simp [hget] at hmem
    | some object =>
      rw [hget] at hmem
      cases object with
      | inst cls fields =>
        refine ⟨place, cls, fields, hget, Handle.mem_ownsAll.1 ?_⟩
        rw [← Object.owns_inst cls]
        exact hmem
      | _ => exact absurd hmem (Multiset.notMem_zero loc)
  · rintro ⟨place, cls, fields, hget, hmem⟩
    refine ⟨place, Finset.mem_range.2 (lt_size_of_get? hget), ?_⟩
    rw [ownedAt, hget]
    show loc ∈ (Object.inst cls fields).owns
    rw [Object.owns_inst]
    exact Handle.mem_ownsAll.2 hmem

theorem release {x : Handle} (hs : h.Settled (x.held + rest)) : (h.release x).Settled rest := by
  apply hs.of_change (.release x)
  · apply Balanced.release
    simpa using hs.balanced
  · intro y hy
    exact Or.inr (Or.inl (Multiset.mem_add.2 (Or.inr hy)))
  · rintro y ⟨loc, cls, fields, hget, hy⟩
    exact Or.inr (Or.inr ⟨loc, cls, fields, get?_of_release hget, hy⟩)

theorem releaseAll (xs : List Handle) (hs : h.Settled (Handle.heldAll xs + rest)) :
    (xs.foldl Heap.release h).Settled rest := by
  induction xs generalizing h with
  | nil => simpa using hs
  | cons x xs ih =>
    rw [Handle.heldAll_cons, add_assoc] at hs
    exact ih hs.release

theorem retain {x : Handle} (hs : h.Settled rest) (hx : h.Usable x) :
    (h.retain x).Settled (x.held + rest) := by
  apply hs.of_change (.retain x)
  · rw [Handle.places_add, Handle.places_held]
    cases x with
    | own loc =>
      rw [add_comm]
      exact hs.balanced.retain (hx.live loc rfl)
    | absent =>
      rw [Handle.owns_absent, zero_add]
      exact hs.balanced
    | share loc =>
      rw [Handle.owns_share, zero_add]
      exact hs.balanced
  · intro y hy
    rcases Multiset.mem_add.1 hy with hy | hy
    · rw [(Handle.mem_held.1 hy).1]
      exact Or.inl (hx.known.grows (Change.retain x).grows)
    · exact Or.inr (Or.inl hy)
  · rintro y ⟨loc, cls, fields, hget, hy⟩
    rw [get?_retain] at hget
    exact Or.inr (Or.inr ⟨loc, cls, fields, hget, hy⟩)

/-- A new object whose fields, if it has any, only share itself. -/
theorem alloc (hs : h.Settled outside) (object : Object)
    (ho : ∀ cls fields, object = .inst cls fields → ∀ x ∈ fields.handles, x = .share h.size) :
    (h.alloc object).2.Settled ((Handle.own h.size).held + outside) := by
  have hnone : object.owns = 0 := by
    cases object with
    | inst cls fields =>
      rw [Object.owns_inst, Multiset.eq_zero_iff_forall_notMem]
      intro loc hloc
      cases ho cls fields rfl _ (Handle.mem_ownsAll.1 hloc)
    | _ => rfl
  apply hs.of_change (.alloc object)
  · rw [Handle.places_add, add_comm]
    exact hs.balanced.alloc hnone
  · intro y hy
    rcases Multiset.mem_add.1 hy with hy | hy
    · rw [(Handle.mem_held.1 hy).1]
      exact Or.inl trivial
    · exact Or.inr (Or.inl hy)
  · rintro y ⟨loc, cls, fields, hget, hy⟩
    rw [get?_alloc] at hget
    split at hget
    · cases hget
      obtain rfl := ho cls fields rfl y hy
      refine Or.inl ⟨?_, ?_⟩
      · rw [size_alloc]
        exact Nat.lt_succ_self _
      · intro object' hget'
        rw [get?_alloc, if_pos rfl] at hget'
        cases hget'
        rfl
    · exact Or.inr (Or.inr ⟨loc, cls, fields, hget, hy⟩)

/-- A value moves into a field of an instance, and what was there is held instead. -/
theorem setField {x : Handle} (hs : h.Settled (x.held + rest)) {loc : Loc} {cls : Class}
    {fields : Bindings} (name : String) (hinst : h.get? loc = some (.inst cls fields)) :
    (h.setField loc name x).Settled ((fields.old name).held + rest) := by
  have hset := fields.heldAll_set name x
  apply hs.of_change (.setField loc name x)
  · have hb := hs.balanced
    rw [Handle.places_add, Handle.places_held] at hb ⊢
    exact hb.setField hinst
  · intro y hy
    rcases Multiset.mem_add.1 hy with hy | hy
    · have hmem : y ∈ Handle.heldAll fields.handles + x.held :=
        hset ▸ Multiset.mem_add.2 (Or.inr hy)
      rcases Multiset.mem_add.1 hmem with hy | hy
      · exact Or.inr (Or.inr ⟨loc, cls, fields, hinst, (Handle.mem_heldAll.1 hy).1⟩)
      · exact Or.inr (Or.inl (Multiset.mem_add.2 (Or.inl hy)))
    · exact Or.inr (Or.inl (Multiset.mem_add.2 (Or.inr hy)))
  · rintro y ⟨place, cls', fields', hget, hy⟩
    rw [get?_setField name x hinst] at hget
    split at hget
    · cases hget
      by_cases hne : y = .absent
      · subst hne
        exact Or.inl trivial
      · have hmem : y ∈ Handle.heldAll fields.handles + x.held :=
          hset ▸ Multiset.mem_add.2 (Or.inl (Handle.mem_heldAll.2 ⟨hy, hne⟩))
        rcases Multiset.mem_add.1 hmem with hy | hy
        · exact Or.inr (Or.inr ⟨loc, _, fields, hinst, (Handle.mem_heldAll.1 hy).1⟩)
        · exact Or.inr (Or.inl (Multiset.mem_add.2 (Or.inl hy)))
    · exact Or.inr (Or.inr ⟨place, cls', fields', hget, hy⟩)

theorem usable_of_mem (hs : h.Settled outside) {x : Handle} (hx : x ∈ outside) : h.Usable x := by
  refine ⟨hs.known x hx, ?_⟩
  rintro loc rfl
  exact (hs.isSome_iff loc).2 (Or.inl hx)

theorem usable_of_held (hs : h.Settled outside) {x : Handle} (hx : x.held ⊆ outside) :
    h.Usable x := by
  cases x with
  | absent => exact h.usable_absent
  | own loc => exact hs.usable_of_mem (hx (Multiset.mem_singleton_self _))
  | share loc => exact hs.usable_of_mem (hx (Multiset.mem_singleton_self _))

theorem usable_of_stores (hs : h.Settled outside) {x : Handle} (hx : h.Stores x) : h.Usable x := by
  refine ⟨hs.stored x hx, ?_⟩
  rintro loc rfl
  exact (hs.isSome_iff loc).2 (Or.inr hx)

end Settled

end Heap

end Mython
