import Mython.Proofs.Store.Likeness
import Mython.Proofs.Store.Sharing

namespace Mython

/-- The place that a place becomes when `k` is left out. -/
def Loc.skip (k loc : Nat) : Nat := if loc < k then loc else loc + 1

/-- The handle that a handle becomes when `k` is left out. -/
def Handle.skip (k : Loc) : Handle → Handle
  | absent => absent
  | own loc => own (Loc.skip k loc)
  | share loc => share (Loc.skip k loc)

/-- A heap that has one place more than another, which is empty. -/
structure Heap.Gap (k : Loc) (h h' : Heap) : Prop where
  le : k ≤ h.size
  size : h'.size = h.size + 1
  empty : h'.cell? k = none

namespace Loc

variable {k loc : Nat}

theorem skip_of_lt (h : loc < k) : skip k loc = loc := if_pos h

theorem skip_of_le (h : k ≤ loc) : skip k loc = loc + 1 := if_neg (Nat.not_lt.2 h)

/-- Two maps that differ in which place is left out are the same in front of it. -/
theorem eq_of_skip {α : Type} {f f' : Nat → α} (h : ∀ loc, f' (skip k loc) = f loc)
    (hloc : loc < k) : f' loc = f loc := by
  rw [← h loc, skip_of_lt hloc]

theorem skip_ne (k loc : Nat) : skip k loc ≠ k := by
  rw [skip]
  split <;> omega

theorem skip_injective (k : Nat) : Function.Injective (skip k) := by
  intro (loc : Nat) (loc' : Nat) h
  rw [skip, skip] at h
  split at h <;> split at h <;> omega

theorem le_skip (k loc : Nat) : loc ≤ skip k loc := by
  rw [skip]
  split <;> omega

end Loc

namespace Handle

theorem owned?_skip (k : Loc) (x : Handle) : (x.skip k).owned? = x.owned?.map (Loc.skip k) := by
  cases x <;> rfl

theorem loc?_skip (k : Loc) (x : Handle) : (x.skip k).loc? = x.loc?.map (Loc.skip k) := by
  cases x <;> rfl

theorem skip_eq_self {k : Loc} {x : Handle} (h : ∀ loc, x.loc? = some loc → loc < k) :
    x.skip k = x := by
  cases x with
  | absent => rfl
  | own loc => rw [skip, Loc.skip_of_lt (h loc rfl)]
  | share loc => rw [skip, Loc.skip_of_lt (h loc rfl)]

end Handle

namespace Heap

theorem Gap.adjust {k : Loc} {h h' : Heap} (hg : h.Gap k h') (loc : Loc) (f f' : Cell → Cell) :
    (h.adjust loc f).Gap k (h'.adjust (Loc.skip k loc) f') where
  le := by
    rw [size_adjust]
    exact hg.le
  size := by rw [size_adjust, size_adjust, hg.size]
  empty := by
    rw [cell?_adjust, if_neg (Loc.skip_ne k loc)]
    exact hg.empty

theorem Gap.clear {k : Loc} {h h' : Heap} (hg : h.Gap k h') (loc : Loc) :
    (h.clear loc).Gap k (h'.clear (Loc.skip k loc)) where
  le := by
    rw [size_clear]
    exact hg.le
  size := by rw [size_clear, size_clear, hg.size]
  empty := by
    rw [cell?_clear, if_neg (Loc.skip_ne k loc)]
    exact hg.empty

theorem Gap.alloc {k : Loc} {h h' : Heap} (hg : h.Gap k h') (object object' : Object) :
    (h.alloc object).2.Gap k (h'.alloc object').2 where
  le := by
    rw [size_alloc]
    exact Nat.le_succ_of_le hg.le
  size := by rw [size_alloc, size_alloc, hg.size]
  empty := by
    have hne : k ≠ h'.size := by
      rw [hg.size]
      exact Nat.ne_of_lt (Nat.lt_succ_of_le hg.le)
    rw [cell?_alloc, if_neg hne]
    exact hg.empty

end Heap

/-- Heaps that are alike when the place `k` is left out of the second one, where it is empty. -/
def Likeness.gap (k : Loc) : Likeness where
  place := Loc.skip k
  handle x x' := x' = x.skip k
  besides := Heap.Gap k
  injective := Loc.skip_injective k
  le_place := Loc.le_skip k
  absent := rfl
  own _ := rfl
  share _ := rfl
  owned? := by
    rintro x _ rfl
    exact x.owned?_skip k
  loc? := by
    rintro h h' x _ - rfl
    exact Or.inl (x.loc?_skip k)
  size hg := by rw [hg.size, Loc.skip_of_le hg.le]
  adjust hg := hg.adjust
  clear hg := hg.clear
  alloc hg := hg.alloc

namespace Heap

/-- An object that owns nothing is gone when the only handle that owns it is. -/
theorem release_alloc {h : Heap} (hreclaims : h.reclaims = true) {object : Object}
    (ho : object.owned = []) :
    (h.alloc object).2.release (.own h.size) = (h.alloc object).2.clear h.size := by
  have hthere : (h.alloc object).2.cell? h.size = some ⟨1, object⟩ := by
    rw [cell?_alloc, if_pos rfl]
  have hreclaims' : (h.alloc object).2.reclaims = true := hreclaims
  rw [release, if_pos hreclaims', size_alloc, releaseWithin, hthere]
  simp only [le_refl, if_true, ho, List.foldl_nil]

/-- What is known of a heap lies within it. -/
theorem Usable.lt_size {h : Heap} {x : Handle} (hx : h.Usable x) {loc : Loc}
    (hloc : x.loc? = some loc) : loc < h.size := by
  cases x with
  | absent => cases hloc
  | share place =>
    cases hloc
    exact hx.known.1
  | own place =>
    cases hloc
    obtain ⟨object, hget⟩ := Option.isSome_iff_exists.1 (hx.live _ rfl)
    exact lt_size_of_get? hget

theorem Usable.skip_eq {h : Heap} {x : Handle} (hx : h.Usable x) : x.skip h.size = x :=
  Handle.skip_eq_self fun _ hloc => hx.lt_size hloc

/-- An object that owns nothing comes and goes: what was there before is as it was. -/
theorem Settled.like_spent {h : Heap} {outside : Multiset Handle} (hs : h.Settled outside)
    {object : Object} (ho : object.owned = []) :
    h.Like (.gap h.size) ((h.alloc object).2.release (.own h.size)) := by
  rw [release_alloc hs.balanced.reclaims ho]
  refine ⟨rfl, ⟨le_rfl, ?_, ?_⟩, ?_⟩
  · rw [size_clear, size_alloc]
  · rw [cell?_clear, if_pos rfl]
  · intro loc
    show Option.Rel _ _ (((h.alloc object).2.clear h.size).cell? (Loc.skip h.size loc))
    rw [cell?_clear, if_neg (Loc.skip_ne h.size loc).symm, cell?_alloc,
      if_neg (Loc.skip_ne h.size loc)]
    by_cases hlt : loc < h.size
    · rw [Loc.skip_of_lt hlt]
      cases hcell : h.cell? loc with
      | none => exact .none
      | some cell =>
        obtain ⟨owners, stored⟩ := cell
        refine .some ⟨rfl, ?_⟩
        cases stored with
        | inst cls fields =>
          apply Object.Like.inst cls
          apply Bindings.Like.of_forall
          intro x hx
          have hget : h.get? loc = some (.inst cls fields) := get?_eq_some.2 ⟨_, hcell, rfl⟩
          exact (hs.usable_of_stores ⟨loc, cls, fields, hget, hx⟩).skip_eq.symm
        | _ => exact .plain rfl
    · rw [cell?_of_size_le (Nat.not_lt.1 hlt), Loc.skip_of_le (Nat.not_lt.1 hlt),
        cell?_of_size_le (Nat.le_succ_of_le (Nat.not_lt.1 hlt))]
      exact .none

end Heap

end Mython
