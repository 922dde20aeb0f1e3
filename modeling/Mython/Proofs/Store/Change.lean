import Mython.Store.Kind

namespace Mython.Heap

/-- The single changes of a heap. -/
inductive Change (h : Heap) : Heap → Prop
  | alloc (object : Object) : Change h (h.alloc object).2
  | retain (x : Handle) : Change h (h.retain x)
  | release (x : Handle) : Change h (h.release x)
  | setField (loc : Loc) (name : String) (x : Handle) : Change h (h.setField loc name x)

/-- What is at an old place of a later heap was there before, and of the same kind. -/
structure Grows (h h' : Heap) : Prop where
  size : h.size ≤ h'.size
  kept : ∀ loc object', loc < h.size → h'.get? loc = some object' →
    ∃ object, h.get? loc = some object ∧ object.kind = object'.kind

theorem Grows.refl (h : Heap) : h.Grows h where
  size := Nat.le_refl _
  kept _ object' _ hget := ⟨object', hget, rfl⟩

theorem Grows.trans {h h' h'' : Heap} (hg : h.Grows h') (hg' : h'.Grows h'') : h.Grows h'' where
  size := Nat.le_trans hg.size hg'.size
  kept loc object'' hloc hget := by
    obtain ⟨object', hget', hkind'⟩ := hg'.kept loc object'' (Nat.lt_of_lt_of_le hloc hg.size) hget
    obtain ⟨object, hget₀, hkind⟩ := hg.kept loc object' hloc hget'
    exact ⟨object, hget₀, hkind.trans hkind'⟩

theorem grows_adjust (h : Heap) (loc : Loc) {f : Cell → Cell}
    (hf : ∀ cell, (f cell).object.kind = cell.object.kind) : h.Grows (h.adjust loc f) where
  size := Nat.le_of_eq (size_adjust h loc f).symm
  kept other object' _ hget := by
    rw [get?, cell?_adjust] at hget
    split at hget
    · obtain ⟨cell', hcell', rfl⟩ := Option.map_eq_some_iff.1 hget
      obtain ⟨cell, hcell, rfl⟩ := Option.map_eq_some_iff.1 hcell'
      exact ⟨cell.object, by rw [get?, hcell]; rfl, (hf cell).symm⟩
    · exact ⟨object', hget, rfl⟩

theorem grows_clear (h : Heap) (loc : Loc) : h.Grows (h.clear loc) where
  size := Nat.le_of_eq (size_clear h loc).symm
  kept other object' _ hget := by
    rw [get?, cell?_clear] at hget
    split at hget
    · cases hget
    · exact ⟨object', hget, rfl⟩

theorem grows_alloc (h : Heap) (object : Object) : h.Grows (h.alloc object).2 where
  size := by
    rw [size_alloc]
    exact Nat.le_succ _
  kept loc object' hloc hget := by
    rw [get?, cell?_alloc, if_neg (Nat.ne_of_lt hloc)] at hget
    exact ⟨object', hget, rfl⟩

/-- Letting go at a place is done by emptying places and by taking owners away, one after another.
What holds of these single steps, and of one step after another, holds of the whole. -/
theorem releaseWithin_of_steps {T : Heap → Heap → Prop} (hrefl : ∀ h, T h h)
    (htrans : ∀ {h h' h''}, T h h' → T h' h'' → T h h'') (hclear : ∀ h loc, T h (h.clear loc))
    (hlower : ∀ (h : Heap) loc,
      T h (h.adjust loc fun cell => { cell with owners := cell.owners - 1 }))
    (n : Nat) (h : Heap) (loc : Loc) : T h (releaseWithin n h loc) := by
  induction n generalizing h loc with
  | zero => exact hrefl h
  | succ n ih =>
    have hfold : ∀ (locs : List Loc) (h : Heap), T h (locs.foldl (releaseWithin n) h) := by
      intro locs
      induction locs with
      | nil => exact hrefl
      | cons first rest ihrest =>
        intro h
        exact htrans (ih h first) (ihrest _)
    rw [releaseWithin]
    split
    · exact hrefl h
    · split
      · exact htrans (hclear h loc) (hfold _ _)
      · exact hlower h loc

theorem grows_releaseWithin (n : Nat) (h : Heap) (loc : Loc) : h.Grows (releaseWithin n h loc) :=
  releaseWithin_of_steps .refl .trans grows_clear (fun h loc => grows_adjust h loc fun _ => rfl)
    n h loc

theorem Change.grows {h h' : Heap} (hc : h.Change h') : h.Grows h' := by
  cases hc with
  | alloc object => exact grows_alloc h object
  | retain x =>
    cases x with
    | own loc => exact grows_adjust h loc fun _ => rfl
    | absent => exact .refl h
    | share loc => exact .refl h
  | release x =>
    cases x with
    | own loc =>
      rw [Heap.release]
      split
      · exact grows_releaseWithin h.size h loc
      · exact .refl h
    | absent => exact .refl h
    | share loc => exact .refl h
  | setField loc name x =>
    apply grows_adjust
    intro cell
    obtain ⟨owners, object⟩ := cell
    cases object <;> rfl

end Mython.Heap
