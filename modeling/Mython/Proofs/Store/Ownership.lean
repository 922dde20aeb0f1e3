import Mathlib.Algebra.BigOperators.Group.Finset.Basic
import Mathlib.Algebra.Order.BigOperators.Group.Finset
import Mathlib.Tactic.Abel
import Mython.Proofs.Store.Held
import Mython.Store.Heap

/-! Every place counts its owners: the handles in fields of objects that are there, and those held
outside the heap. -/

namespace Mython

/-- The places that an object keeps occupied. -/
def Object.owns (object : Object) : Multiset Loc := object.owned

theorem Object.owns_inst (cls : Class) (fields : Bindings) :
    (Object.inst cls fields).owns = Handle.ownsAll fields.handles :=
  Handle.coe_filterMap_owned? fields.handles

namespace Heap

/-- How many handles own what is at a place. -/
def owners (h : Heap) (loc : Loc) : Nat := ((h.cell? loc).map (·.owners)).getD 0

/-- What the object at a place owns. -/
def ownedAt (h : Heap) (loc : Loc) : Multiset Loc := ((h.get? loc).map Object.owns).getD 0

/-- What all objects own. -/
def stored (h : Heap) : Multiset Loc := ∑ loc ∈ Finset.range h.size, h.ownedAt loc

/-- How many places are occupied. -/
def live (h : Heap) : Nat := ((Finset.range h.size).filter fun loc => (h.cell? loc).isSome).card

/-- The counts are those of the owners in the heap and of `outside` taken together, and every object
has an owner. -/
structure Balanced (h : Heap) (outside : Multiset Loc) : Prop where
  reclaims : h.reclaims = true
  counts : ∀ loc, h.owners loc = (outside + h.stored).count loc
  positive : ∀ loc cell, h.cell? loc = some cell → 0 < cell.owners

theorem cell?_of_size_le {h : Heap} {loc : Loc} (hle : h.size ≤ loc) : h.cell? loc = none := by
  have hnone : h.cells[loc]? = none := Array.getElem?_eq_none hle
  rw [cell?, hnone]
  rfl

theorem lt_size_of_cell? {h : Heap} {loc : Loc} {cell : Cell} (hc : h.cell? loc = some cell) :
    loc < h.size := by
  by_contra hge
  rw [cell?_of_size_le (Nat.le_of_not_lt hge)] at hc
  cases hc

theorem get?_eq_some {h : Heap} {loc : Loc} {object : Object} :
    h.get? loc = some object ↔ ∃ cell, h.cell? loc = some cell ∧ cell.object = object := by
  rw [get?, Option.map_eq_some_iff]

theorem get?_retain (h : Heap) (x : Handle) (place : Loc) :
    (h.retain x).get? place = h.get? place := by
  cases x with
  | own loc =>
    rw [get?, get?, retain, cell?_adjust]
    split
    · cases h.cell? place <;> rfl
    · rfl
  | absent => rfl
  | share loc => rfl

theorem stored_congr {h h' : Heap} (hsize : h'.size = h.size)
    (hget : ∀ loc, h'.get? loc = h.get? loc) : h'.stored = h.stored := by
  simp only [stored, ownedAt, hsize, hget]

/-- If only one place changes, what is stored changes by what is owned there. -/
theorem stored_update {h h' : Heap} {loc : Loc} (hsize : h'.size = h.size) (hloc : loc < h.size)
    (hget : ∀ other, other ≠ loc → h'.get? other = h.get? other) :
    h'.stored + h.ownedAt loc = h.stored + h'.ownedAt loc := by
  have hmem : loc ∈ Finset.range h.size := Finset.mem_range.2 hloc
  have hrest : ∑ other ∈ (Finset.range h.size).erase loc, h'.ownedAt other =
      ∑ other ∈ (Finset.range h.size).erase loc, h.ownedAt other := by
    apply Finset.sum_congr rfl
    intro other hother
    rw [ownedAt, ownedAt, hget other (Finset.ne_of_mem_erase hother)]
  rw [stored, stored, hsize, ← Finset.add_sum_erase _ _ hmem, ← Finset.add_sum_erase _ _ hmem,
    hrest, add_right_comm, add_comm (h'.ownedAt loc), add_right_comm]

namespace Balanced

variable {h : Heap} {outside : Multiset Loc}

/-- A place is occupied exactly if it is owned. -/
theorem isSome_iff (hb : h.Balanced outside) (loc : Loc) :
    (h.get? loc).isSome = true ↔ loc ∈ outside + h.stored := by
  rw [← Multiset.count_pos, ← hb.counts, get?, owners, Option.isSome_map]
  cases hc : h.cell? loc with
  | none => simp
  | some cell => simpa using hb.positive loc cell hc

theorem live_of_mem (hb : h.Balanced outside) {loc : Loc} (hm : loc ∈ outside) :
    ∃ cell, h.cell? loc = some cell := by
  have hsome := (hb.isSome_iff loc).2 (Multiset.mem_add.2 (Or.inl hm))
  rw [get?, Option.isSome_map] at hsome
  exact Option.isSome_iff_exists.1 hsome

/-- A new object without owning fields has one owner, who is outside. -/
theorem alloc (hb : h.Balanced outside) {object : Object} (ho : object.owns = 0) :
    (h.alloc object).2.Balanced (outside + {h.size}) := by
  have hget : ∀ loc, loc < h.size → (h.alloc object).2.ownedAt loc = h.ownedAt loc := by
    intro loc hloc
    rw [ownedAt, ownedAt, get?, get?, cell?_alloc, if_neg hloc.ne]
  have hnew : (h.alloc object).2.ownedAt h.size = 0 := by
    rw [ownedAt, get?, cell?_alloc, if_pos rfl]
    exact ho
  have hstored : (h.alloc object).2.stored = h.stored := by
    rw [stored, size_alloc, Finset.sum_range_succ, hnew, add_zero]
    exact Finset.sum_congr rfl fun loc hloc => hget loc (Finset.mem_range.1 hloc)
  have hfresh : h.cell? h.size = none := cell?_of_size_le le_rfl
  refine ⟨hb.reclaims, ?_, ?_⟩
  · intro loc
    rw [hstored, add_right_comm, Multiset.count_add, ← hb.counts, owners, owners, cell?_alloc]
    by_cases hloc : loc = h.size
    · subst hloc
      simp [hfresh]
    · simp [hloc]
  · intro loc cell hc
    rw [cell?_alloc] at hc
    split at hc
    · cases hc
      exact Nat.one_pos
    · exact hb.positive loc cell hc

theorem retain (hb : h.Balanced outside) {loc : Loc} (hlive : (h.get? loc).isSome = true) :
    (h.retain (.own loc)).Balanced (outside + {loc}) := by
  have hstored : (h.retain (.own loc)).stored = h.stored :=
    stored_congr (by rw [Heap.retain, size_adjust]) (h.get?_retain (.own loc))
  rw [get?, Option.isSome_map] at hlive
  obtain ⟨cell, hcell⟩ := Option.isSome_iff_exists.1 hlive
  refine ⟨hb.reclaims, ?_, ?_⟩
  · intro other
    rw [hstored, add_right_comm, Multiset.count_add, ← hb.counts, owners, owners, Heap.retain,
      cell?_adjust]
    by_cases hother : loc = other
    · subst hother
      simp [hcell]
    · simp [hother, Ne.symm hother]
  · intro other found hc
    rw [Heap.retain, cell?_adjust] at hc
    split at hc
    · obtain ⟨before, -, rfl⟩ := Option.map_eq_some_iff.1 hc
      exact Nat.succ_pos _
    · exact hb.positive other found hc

/-- A change at one place keeps the account if what is owned there and outside changes by as many
owners of the place as its count does. -/
theorem update (hb : h.Balanced outside) {h' : Heap} {loc n : Nat} {cell : Cell}
    {outside' : Multiset Loc} (hcell : h.cell? loc = some cell) (hsize : h'.size = h.size)
    (hreclaims : h'.reclaims = h.reclaims)
    (hother : ∀ other, other ≠ loc → h'.cell? other = h.cell? other)
    (hpositive : ∀ cell', h'.cell? loc = some cell' → 0 < cell'.owners)
    (howners : h'.owners loc + n = h.owners loc)
    (houtside : outside' + h'.ownedAt loc + Multiset.replicate n loc = outside + h.ownedAt loc) :
    h'.Balanced outside' := by
  have hstored : h'.stored + h.ownedAt loc = h.stored + h'.ownedAt loc := by
    apply stored_update hsize (lt_size_of_cell? hcell)
    intro other hne
    rw [get?, get?, hother other hne]
  -- All owners together: those of the place change by what its count does, no others change.
  have htotal : outside' + h'.stored + Multiset.replicate n loc = outside + h.stored := by
    apply add_right_cancel (b := h.ownedAt loc)
    calc outside' + h'.stored + Multiset.replicate n loc + h.ownedAt loc
        = outside' + Multiset.replicate n loc + (h'.stored + h.ownedAt loc) := by abel
      _ = outside' + h'.ownedAt loc + Multiset.replicate n loc + h.stored := by
        rw [hstored]
        abel
      _ = outside + h.stored + h.ownedAt loc := by
        rw [houtside]
        abel
  refine ⟨hreclaims.trans hb.reclaims, ?_, ?_⟩
  · intro other
    have hcount := congrArg (Multiset.count other) htotal
    rw [Multiset.count_add, ← hb.counts] at hcount
    by_cases hne : other = loc
    · subst hne
      rw [Multiset.count_replicate_self] at hcount
      omega
    · rw [Multiset.count_replicate, if_neg (Ne.symm hne), add_zero] at hcount
      rw [hcount, owners, owners, hother other hne]
  · intro other cell' hc
    by_cases hne : other = loc
    · subst hne
      exact hpositive cell' hc
    · rw [hother other hne] at hc
      exact hb.positive other cell' hc

theorem setField {x : Handle} {rest : Multiset Loc} (hb : h.Balanced (x.owns + rest)) {loc : Loc}
    {cls : Class} {fields : Bindings} {name : String}
    (hinst : h.get? loc = some (.inst cls fields)) :
    (h.setField loc name x).Balanced ((fields.old name).owns + rest) := by
  obtain ⟨⟨owners, object⟩, hcell, rfl⟩ := get?_eq_some.1 hinst
  have hself : (h.setField loc name x).cell? loc =
      some ⟨owners, .inst cls (fields.set name x)⟩ := by
    rw [Heap.setField, cell?_adjust, if_pos rfl, hcell]
    rfl
  apply hb.update (n := 0) hcell
  · rw [Heap.setField, size_adjust]
  · rfl
  · intro other hne
    rw [Heap.setField, cell?_adjust, if_neg (Ne.symm hne)]
  · intro cell' hc
    rw [hself] at hc
    cases hc
    exact hb.positive loc ⟨owners, .inst cls fields⟩ hcell
  · rw [Heap.owners, Heap.owners, hself, hcell]
    rfl
  · have hset := fields.ownsAll_set name x
    rw [ownedAt, ownedAt, get?, get?, hself, hcell]
    simp only [Option.map_some, Option.getD_some, Object.owns_inst, Multiset.replicate_zero]
    calc (fields.old name).owns + rest + Handle.ownsAll (fields.set name x).handles + 0
        = rest + (Handle.ownsAll (fields.set name x).handles + (fields.old name).owns) := by abel
      _ = x.owns + rest + Handle.ownsAll fields.handles := by
        rw [hset]
        abel

theorem lower {loc : Loc} (hb : h.Balanced (outside + {loc})) {cell : Cell}
    (hcell : h.cell? loc = some cell) (howners : ¬ cell.owners ≤ 1) :
    (h.adjust loc fun cell => { cell with owners := cell.owners - 1 }).Balanced outside := by
  have hself : (h.adjust loc fun cell => { cell with owners := cell.owners - 1 }).cell? loc =
      some { cell with owners := cell.owners - 1 } := by
    rw [cell?_adjust, if_pos rfl, hcell]
    rfl
  apply hb.update (n := 1) hcell
  · rw [size_adjust]
  · rfl
  · intro other hne
    rw [cell?_adjust, if_neg (Ne.symm hne)]
  · intro cell' hc
    rw [hself] at hc
    cases hc
    show 0 < cell.owners - 1
    omega
  · rw [owners, owners, hself, hcell]
    show cell.owners - 1 + 1 = cell.owners
    omega
  · rw [ownedAt, ownedAt, get?, get?, hself, hcell, Multiset.replicate_one, add_right_comm]
    rfl

/-- The last owner gone: what the object owned is owned from outside now. -/
theorem clear {loc : Loc} (hb : h.Balanced (outside + {loc})) {cell : Cell}
    (hcell : h.cell? loc = some cell) (howners : cell.owners ≤ 1) :
    (h.clear loc).Balanced (outside + cell.object.owns) := by
  have hself : (h.clear loc).cell? loc = none := by rw [cell?_clear, if_pos rfl]
  have hone : cell.owners = 1 := Nat.le_antisymm howners (hb.positive loc cell hcell)
  apply hb.update (n := 1) hcell
  · rw [size_clear]
  · rfl
  · intro other hne
    rw [cell?_clear, if_neg (Ne.symm hne)]
  · intro cell' hc
    rw [hself] at hc
    cases hc
  · rw [owners, owners, hself, hcell]
    exact hone.symm
  · rw [ownedAt, ownedAt, get?, get?, hself, hcell, Multiset.replicate_one]
    simp only [Option.map_none, Option.map_some, Option.getD_none, Option.getD_some]
    abel

end Balanced

theorem live_le_size (h : Heap) : h.live ≤ h.size := by
  have hle := Finset.card_filter_le (Finset.range h.size) fun loc => (h.cell? loc).isSome = true
  rwa [Finset.card_range] at hle

theorem live_adjust (h : Heap) (loc : Loc) (f : Cell → Cell) : (h.adjust loc f).live = h.live := by
  have hsome : ∀ other, ((h.adjust loc f).cell? other).isSome = (h.cell? other).isSome := by
    intro other
    rw [cell?_adjust]
    split
    · rw [Option.isSome_map]
    · rfl
  simp only [live, size_adjust, hsome]

theorem live_clear {h : Heap} {loc : Loc} {cell : Cell} (hcell : h.cell? loc = some cell) :
    (h.clear loc).live < h.live := by
  apply Finset.card_lt_card
  rw [Finset.ssubset_iff_of_subset]
  · refine ⟨loc, ?_, ?_⟩
    · simp [hcell, lt_size_of_cell? hcell]
    · simp [cell?_clear]
  · intro other hother
    rw [size_clear, Finset.mem_filter, cell?_clear] at hother
    rw [Finset.mem_filter]
    refine ⟨hother.1, ?_⟩
    by_cases hne : loc = other
    · simp [hne] at hother
    · simpa [hne] using hother.2

namespace Balanced

theorem foldl {n : Nat}
    (hstep : ∀ (h : Heap) (outside : Multiset Loc) (loc : Loc), h.Balanced (outside + {loc}) →
      h.live ≤ n → (releaseWithin n h loc).Balanced outside ∧ (releaseWithin n h loc).live ≤ h.live)
    (locs : List Loc) {h : Heap} {outside : Multiset Loc}
    (hb : h.Balanced (outside + (locs : Multiset Loc))) (hn : h.live ≤ n) :
    (locs.foldl (releaseWithin n) h).Balanced outside ∧
      (locs.foldl (releaseWithin n) h).live ≤ h.live := by
  induction locs generalizing h with
  | nil => exact ⟨by simpa using hb, le_rfl⟩
  | cons loc locs ih =>
    have hsplit : outside + ((loc :: locs : List Loc) : Multiset Loc) =
        outside + (locs : Multiset Loc) + {loc} := by
      rw [← Multiset.cons_coe, ← Multiset.singleton_add]
      abel
    obtain ⟨hfirst, hlive⟩ := hstep h _ loc (hsplit ▸ hb) hn
    obtain ⟨hrest, hlive'⟩ := ih hfirst (hlive.trans hn)
    exact ⟨hrest, hlive'.trans hlive⟩

/-- Letting go of an owner, with as many steps down as there are objects. The induction is on that
number: emptying a place leaves one object less to go on with. -/
theorem releaseWithin (n : Nat) (h : Heap) (outside : Multiset Loc) (loc : Loc)
    (hb : h.Balanced (outside + {loc})) (hn : h.live ≤ n) :
    (releaseWithin n h loc).Balanced outside ∧ (releaseWithin n h loc).live ≤ h.live := by
  induction n generalizing h outside loc with
  | zero =>
    obtain ⟨cell, hcell⟩ := hb.live_of_mem (show loc ∈ outside + {loc} by simp)
    have hpos := Nat.zero_lt_of_lt (live_clear hcell)
    omega
  | succ n ih =>
    obtain ⟨cell, hcell⟩ := hb.live_of_mem (show loc ∈ outside + {loc} by simp)
    rw [Heap.releaseWithin, hcell]
    by_cases howners : cell.owners ≤ 1
    · simp only [howners, if_true]
      have hless := live_clear hcell
      obtain ⟨hrest, hlive⟩ := foldl ih cell.object.owned (hb.clear hcell howners) (by omega)
      exact ⟨hrest, hlive.trans hless.le⟩
    · simp only [howners, if_false]
      exact ⟨hb.lower hcell howners, (live_adjust h loc _).le⟩

theorem release {h : Heap} {outside : Multiset Loc} {x : Handle}
    (hb : h.Balanced (x.owns + outside)) : (h.release x).Balanced outside := by
  cases x with
  | own loc =>
    rw [Heap.release, if_pos hb.reclaims]
    rw [Handle.owns_own, add_comm] at hb
    exact (releaseWithin h.size h outside loc hb h.live_le_size).1
  | absent =>
    rw [Handle.owns_absent, zero_add] at hb
    exact hb
  | share loc =>
    rw [Handle.owns_share, zero_add] at hb
    exact hb

end Balanced

end Heap

end Mython
