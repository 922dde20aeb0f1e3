import Mathlib.Data.Option.Basic
import Mathlib.Data.List.Forall2
import Mathlib.Data.Set.Basic
import Mython.Proofs.Store.Likeness

namespace Mython

/-- The places that have been used and are empty. -/
def Heap.gone (h : Heap) : Set Loc := {loc | loc < h.size ∧ h.get? loc = none}

/-- Two handles that are the same, or a handle that shares a place which is gone, and none. -/
inductive Handle.Fades (gone : Set Loc) : Handle → Handle → Prop
  | same (x : Handle) : Fades gone x x
  | expired {loc : Loc} (h : loc ∈ gone) : Fades gone (.share loc) .absent

/-- The same names, bound to values that fade. -/
def Bindings.Fades (gone : Set Loc) (b b' : Bindings) : Prop :=
  List.Forall₂ (fun entry entry' => entry.1 = entry'.1 ∧ Handle.Fades gone entry.2 entry'.2)
    b.entries b'.entries

/-- Two objects that differ in nothing but fields that fade. -/
inductive Object.Fades (gone : Set Loc) : Object → Object → Prop
  | plain {object : Object} (h : object.fields? = none) : Fades gone object object
  | inst (cls : Class) {fields fields' : Bindings} (h : fields.Fades gone fields') :
      Fades gone (.inst cls fields) (.inst cls fields')

/-- Two objects that fade, with as many owners. -/
structure Cell.Fades (gone : Set Loc) (c c' : Cell) : Prop where
  owners : c'.owners = c.owners
  object : c.object.Fades gone c'.object

/-- Two heaps with the same objects, in one of which values may have faded. -/
structure Heap.Fades (gone : Set Loc) (h h' : Heap) : Prop where
  size : h'.size = h.size
  reclaims : h'.reclaims = h.reclaims
  emptied : gone ⊆ h.gone
  cell? : ∀ loc, Option.Rel (Cell.Fades gone) (h.cell? loc) (h'.cell? loc)

variable {gone gone' : Set Loc}

/-- What fades with few places gone fades with more of them gone. -/
theorem Handle.Fades.mono {x x' : Handle} (hx : x.Fades gone x') (hle : gone ⊆ gone') :
    x.Fades gone' x' := by
  cases hx with
  | same => exact .same x
  | expired h => exact .expired (hle h)

namespace Bindings.Fades

variable {b b' : Bindings}

theorem refl (b : Bindings) : b.Fades gone b :=
  List.forall₂_same.2 fun entry _ => ⟨rfl, .same entry.2⟩

theorem mono (hb : b.Fades gone b') (hle : gone ⊆ gone') : b.Fades gone' b' :=
  List.Forall₂.imp (fun _ _ hentry => ⟨hentry.1, hentry.2.mono hle⟩) hb

end Bindings.Fades

namespace Object

variable {object object' : Object}

theorem Fades.refl (object : Object) : object.Fades gone object := by
  cases object with
  | inst cls fields => exact .inst cls (.refl fields)
  | _ => exact .plain rfl

theorem Fades.mono (ho : object.Fades gone object') (hle : gone ⊆ gone') :
    object.Fades gone' object' := by
  cases ho with
  | plain h => exact .plain h
  | inst cls h => exact .inst cls (h.mono hle)

theorem fades_iff_like : object.Fades gone object' ↔ object.Like (Handle.Fades gone) object' := by
  constructor
  · intro h
    cases h with
    | plain h => exact .plain h
    | inst cls h => exact .inst cls h
  · intro h
    cases h with
    | plain h => exact .plain h
    | inst cls h => exact .inst cls h

end Object

theorem Cell.fades_iff_like {c c' : Cell} :
    c.Fades gone c' ↔ c.Like (Handle.Fades gone) c' :=
  ⟨fun h => ⟨h.owners, Object.fades_iff_like.1 h.object⟩,
    fun h => ⟨h.owners, Object.fades_iff_like.2 h.object⟩⟩

namespace Heap

theorem cell?_of_gone {h : Heap} {loc : Loc} (hgone : loc ∈ h.gone) : h.cell? loc = none :=
  Option.map_eq_none_iff.1 hgone.2

theorem object?_of_gone {h : Heap} {loc : Loc} (hgone : loc ∈ h.gone) :
    h.object? (.share loc) = none := hgone.2

theorem gone_adjust (h : Heap) (loc : Loc) (f : Cell → Cell) : h.gone ⊆ (h.adjust loc f).gone := by
  intro other hother
  refine ⟨by rw [size_adjust]; exact hother.1, ?_⟩
  rw [get?, cell?_adjust, cell?_of_gone hother]
  split <;> rfl

theorem gone_clear (h : Heap) (loc : Loc) : h.gone ⊆ (h.clear loc).gone := by
  intro other hother
  refine ⟨by rw [size_clear]; exact hother.1, ?_⟩
  rw [get?, cell?_clear, cell?_of_gone hother]
  split <;> rfl

/-- A place that is gone is an old one, so nothing new is stored there. -/
theorem gone_alloc (h : Heap) (object : Object) : h.gone ⊆ (h.alloc object).2.gone := by
  rintro other ⟨hlt, hnone⟩
  refine ⟨by rw [size_alloc]; exact Nat.lt_succ_of_lt hlt, ?_⟩
  rw [get?, cell?_alloc, if_neg (Nat.ne_of_lt hlt)]
  exact hnone

end Heap

/-- Heaps that are alike place by place, but for handles that have expired in the first one. -/
def Likeness.fading (gone : Set Loc) : Likeness where
  place := id
  handle := Handle.Fades gone
  besides h h' := h'.size = h.size ∧ gone ⊆ h.gone
  injective := Function.injective_id
  le_place _ := le_rfl
  absent := .same .absent
  own loc := .same (.own loc)
  share loc := .same (.share loc)
  owned? := by
    intro x x' hx
    rw [Option.map_id]
    cases hx with
    | same => rfl
    | expired => rfl
  loc? := by
    intro h h' x x' hbesides hx
    cases hx with
    | same =>
      rw [Option.map_id]
      exact Or.inl rfl
    | expired hloc => exact Or.inr ⟨Heap.object?_of_gone (hbesides.2 hloc), rfl⟩
  size hbesides := hbesides.1
  adjust hbesides loc f _ := by
    refine ⟨?_, hbesides.2.trans (Heap.gone_adjust _ loc f)⟩
    rw [Heap.size_adjust, Heap.size_adjust, hbesides.1]
  clear hbesides loc := by
    refine ⟨?_, hbesides.2.trans (Heap.gone_clear _ loc)⟩
    rw [Heap.size_clear, Heap.size_clear, hbesides.1]
  alloc hbesides object _ := by
    refine ⟨?_, hbesides.2.trans (Heap.gone_alloc _ object)⟩
    rw [Heap.size_alloc, Heap.size_alloc, hbesides.1]

namespace Heap

variable {h h' : Heap}

theorem Fades.refl (hgone : gone ⊆ h.gone) : h.Fades gone h where
  size := rfl
  reclaims := rfl
  emptied := hgone
  cell? loc := by
    cases h.cell? loc with
    | none => exact .none
    | some cell => exact .some ⟨rfl, .refl cell.object⟩

theorem Fades.mono (hh : h.Fades gone h') (hle : gone ⊆ gone') (hgone : gone' ⊆ h.gone) :
    h.Fades gone' h' where
  size := hh.size
  reclaims := hh.reclaims
  emptied := hgone
  cell? loc := by
    have hcell := hh.cell? loc
    generalize h.cell? loc = c, h'.cell? loc = c' at hcell
    cases hcell with
    | some hc => exact .some ⟨hc.owners, hc.object.mono hle⟩
    | none => exact .none

theorem fades_iff_like : h.Fades gone h' ↔ h.Like (.fading gone) h' := by
  have hcells : Cell.Fades gone = Cell.Like (Handle.Fades gone) := by
    funext c c'
    exact propext Cell.fades_iff_like
  constructor
  · intro hh
    exact ⟨hh.reclaims, ⟨hh.size, hh.emptied⟩, hcells ▸ hh.cell?⟩
  · intro hh
    refine ⟨hh.besides.1, hh.reclaims, hh.besides.2, ?_⟩
    rw [hcells]
    exact hh.cell?

end Heap

end Mython
