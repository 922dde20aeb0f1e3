import Mython.Proofs.Program.SelfReads
import Mython.Proofs.Store.Sharing
import Mython.Run.Expression

/-! Heaps that never empty a place, beside heaps that count owners. What has gone from the one is
still in the other, but no handle in use leads there any more. -/

namespace Mython

/-- A handle that is absent or owns, and so never expires. -/
def Handle.Firm : Handle → Prop
  | share _ => False
  | _ => True

/-- The class that an object is, or is an instance of. -/
def Object.definition? : Object → Option Class
  | cls c => some c
  | inst c _ => some c
  | _ => none

namespace Bindings

theorem mem_put {name : String} {x : Handle} {entries : List (String × Handle)}
    {entry : String × Handle} (h : entry ∈ put name x entries) :
    entry = (name, x) ∨ entry ∈ entries := by
  induction entries with
  | nil => exact Or.inl (List.mem_singleton.1 h)
  | cons first rest ih =>
    obtain ⟨other, y⟩ := first
    rw [put] at h
    split at h
    · rcases List.mem_cons.1 h with h | h
      · exact Or.inl h
      · exact Or.inr (List.mem_cons_of_mem _ h)
    · rcases List.mem_cons.1 h with rfl | h
      · exact Or.inr List.mem_cons_self
      · exact (ih h).imp id (List.mem_cons_of_mem _)

end Bindings

namespace Heap

theorem size_releaseWithin (n : Nat) (h : Heap) (loc : Loc) :
    (releaseWithin n h loc).size = h.size :=
  @releaseWithin_of_steps (fun h h' => h'.size = h.size) (fun _ => rfl)
    (fun hfirst hnext => hnext.trans hfirst) size_clear (fun h loc => size_adjust h loc _) n h loc

@[simp]
theorem size_release (h : Heap) (x : Handle) : (h.release x).size = h.size := by
  cases x with
  | own loc =>
    rw [release]
    split
    · exact size_releaseWithin h.size h loc
    · rfl
  | absent => rfl
  | share loc => rfl

@[simp]
theorem size_retain (h : Heap) (x : Handle) : (h.retain x).size = h.size := by
  cases x with
  | own loc => exact size_adjust h loc _
  | absent => rfl
  | share loc => rfl

/-- The instances of a heap hold handles that are firm, but for the way to themselves, and no class
reads that way. -/
structure Firm (h : Heap) : Prop where
  field : ∀ {loc cls fields}, h.get? loc = some (.inst cls fields) → ∀ entry ∈ fields.entries,
    entry.2.Firm ∨ entry.1 = selfName ∧ entry.2 = .share loc
  cls : ∀ {loc object c}, h.get? loc = some object → object.definition? = some c →
    c.readsSelf = false

namespace Firm

variable {h : Heap}

/-- What has less in it is firm as well. -/
theorem of_get? {h' : Heap} (hf : h.Firm)
    (hget : ∀ loc object, h'.get? loc = some object → h.get? loc = some object) : h'.Firm where
  field hthere := hf.field (hget _ _ hthere)
  cls hthere := hf.cls (hget _ _ hthere)

theorem empty : Heap.empty.Firm := by
  have hnone : ∀ loc, Heap.empty.get? loc = none := by
    intro loc
    rw [get?, cell?_of_size_le (Nat.zero_le loc)]
    rfl
  constructor
  · intro loc cls fields hget
    rw [hnone] at hget
    cases hget
  · intro loc object c hget
    rw [hnone] at hget
    cases hget

theorem retain (hf : h.Firm) (x : Handle) : (h.retain x).Firm := by
  apply hf.of_get?
  intro loc object hget
  rwa [get?_retain] at hget

theorem release (hf : h.Firm) (x : Handle) : (h.release x).Firm :=
  hf.of_get? fun _ _ => get?_of_release

theorem alloc (hf : h.Firm) {object : Object}
    (hfields : ∀ cls fields, object = .inst cls fields → ∀ entry ∈ fields.entries,
      entry.2.Firm ∨ entry.1 = selfName ∧ entry.2 = .share h.size)
    (hcls : ∀ c, object.definition? = some c → c.readsSelf = false) :
    (h.alloc object).2.Firm := by
  constructor
  · intro loc cls fields hget
    rw [get?_alloc] at hget
    split at hget
    · next hloc =>
      cases hget
      rw [hloc]
      exact hfields cls fields rfl
    · exact hf.field hget
  · intro loc found c hget
    rw [get?_alloc] at hget
    split at hget
    · cases hget
      exact hcls c
    · exact hf.cls hget

theorem setField (hf : h.Firm) (loc : Loc) (name : String) {x : Handle} (hx : x.Firm) :
    (h.setField loc name x).Firm := by
  have hold : ∀ place object, (h.setField loc name x).get? place = some object →
      ∃ found, h.get? place = some found ∧ (object = found ∨ object = found.bound name x) := by
    intro place object hget
    rw [get?_setField_bound] at hget
    split at hget
    · obtain ⟨found, hfound, rfl⟩ := Option.map_eq_some_iff.1 hget
      exact ⟨found, hfound, Or.inr rfl⟩
    · exact ⟨object, hget, Or.inl rfl⟩
  constructor
  · intro place cls fields hget
    obtain ⟨found, hfound, rfl | hbound⟩ := hold _ _ hget
    · exact hf.field hfound
    · cases found with
      | inst c old =>
        cases hbound
        intro entry hentry
        rcases Bindings.mem_put hentry with rfl | hentry
        · exact Or.inl hx
        · exact hf.field hfound entry hentry
      | _ => cases hbound
  · intro place object c hget hc
    obtain ⟨found, hfound, rfl | rfl⟩ := hold _ _ hget
    · exact hf.cls hfound hc
    · apply hf.cls hfound
      cases found <;> exact hc

/-- A field other than the way to itself is firm. -/
theorem of_field (hf : h.Firm) {x y : Handle} {owner name : String}
    (hfield : h.field x owner name = .ok y) (hname : name ≠ selfName) : y.Firm := by
  obtain ⟨loc, cls, fields, hget, hbound⟩ := field_eq_ok hfield
  rcases hf.field hget _ (Bindings.mem_of_get? hbound) with hfirm | ⟨hself, -⟩
  · exact hfirm
  · exact absurd hself hname

theorem of_follow (hf : h.Firm) {owner : String} {x y : Handle} {names : List String}
    (hfollow : h.follow owner x names = .ok y) (hnames : selfName ∉ names) (hx : x.Firm) :
    y.Firm := by
  induction names generalizing owner x with
  | nil =>
    cases hfollow
    exact hx
  | cons name names ih =>
    rw [List.mem_cons, not_or] at hnames
    rw [follow] at hfollow
    cases hfield : h.field x owner name with
    | error cause =>
      rw [hfield] at hfollow
      cases hfollow
    | ok z =>
      rw [hfield] at hfollow
      exact ih hfollow hnames.2 (hf.of_field hfield (Ne.symm hnames.1))

end Firm

/-- Letting go changes nothing where places are never emptied. -/
theorem release_of_lasting {h : Heap} (hl : h.reclaims = false) (x : Handle) : h.release x = h := by
  cases x with
  | own loc => rw [release, hl, if_neg Bool.false_ne_true]
  | absent => rfl
  | share loc => rfl

/-- A heap that counts owners and one that never empties a place, after the same changes. -/
structure Twin (h h' : Heap) : Prop where
  size : h'.size = h.size
  kept : ∀ loc object, h.get? loc = some object → h'.get? loc = some object
  lasting : h'.reclaims = false

namespace Twin

variable {h h' : Heap}

theorem retain (ht : h.Twin h') (x : Handle) : (h.retain x).Twin (h'.retain x) where
  size := by rw [size_retain, size_retain, ht.size]
  kept loc object hget := by
    rw [get?_retain] at hget ⊢
    exact ht.kept loc object hget
  lasting := by cases x <;> exact ht.lasting

theorem release (ht : h.Twin h') (x : Handle) : (h.release x).Twin (h'.release x) := by
  rw [release_of_lasting ht.lasting]
  refine ⟨?_, ?_, ht.lasting⟩
  · rw [size_release, ht.size]
  · intro loc object hget
    exact ht.kept loc object (get?_of_release hget)

theorem releaseAll (ht : h.Twin h') (xs : List Handle) :
    (xs.foldl Heap.release h).Twin (xs.foldl Heap.release h') := by
  induction xs generalizing h h' with
  | nil => exact ht
  | cons x xs ih => exact ih (ht.release x)

theorem alloc (ht : h.Twin h') (object : Object) : (h.alloc object).2.Twin (h'.alloc object).2 where
  size := by rw [size_alloc, size_alloc, ht.size]
  kept loc found hget := by
    rw [get?_alloc] at hget ⊢
    rw [ht.size]
    split
    · next hloc => rwa [if_pos hloc] at hget
    · next hloc =>
      rw [if_neg hloc] at hget
      exact ht.kept loc found hget
  lasting := ht.lasting

theorem setField (ht : h.Twin h') (loc : Loc) (name : String) (x : Handle) :
    (h.setField loc name x).Twin (h'.setField loc name x) where
  size := by rw [Heap.setField, size_adjust, Heap.setField, size_adjust, ht.size]
  kept place object hget := by
    rw [get?_setField_bound] at hget ⊢
    split
    · next hloc =>
      rw [if_pos hloc] at hget
      obtain ⟨found, hfound, rfl⟩ := Option.map_eq_some_iff.1 hget
      rw [ht.kept place found hfound]
      rfl
    · next hloc =>
      rw [if_neg hloc] at hget
      exact ht.kept place object hget
  lasting := ht.lasting

/-- What is held firmly leads to the same object in both. -/
theorem object?_of_held (ht : h.Twin h') {outside : Multiset Handle} (hs : h.Settled outside)
    (hf : ∀ y ∈ outside, y.Firm) {x : Handle} (hx : x.held ⊆ outside) :
    h'.object? x = h.object? x := by
  cases x with
  | absent => rfl
  | own loc =>
    have hmem : Handle.own loc ∈ outside := hx (Multiset.mem_singleton_self _)
    obtain ⟨object, hget⟩ := Option.isSome_iff_exists.1 ((hs.usable_of_mem hmem).live loc rfl)
    exact (ht.kept loc object hget).trans hget.symm
  | share loc => exact (hf _ (hx (Multiset.mem_singleton_self _))).elim

/-- What an instance holds leads to the same object in both, also the way to itself. -/
theorem object?_of_entry (ht : h.Twin h') {outside : Multiset Handle} (hs : h.Settled outside)
    (hf : h.Firm) {loc : Loc} {cls : Class} {fields : Bindings}
    (hget : h.get? loc = some (.inst cls fields)) {entry : String × Handle}
    (hentry : entry ∈ fields.entries) : h'.object? entry.2 = h.object? entry.2 := by
  obtain ⟨name, x⟩ := entry
  rcases hf.field hget _ hentry with hx | ⟨-, hx⟩
  · cases x with
    | absent => rfl
    | own place =>
      have hstored : h.Stores (.own place) :=
        ⟨loc, cls, fields, hget, List.mem_map_of_mem hentry⟩
      obtain ⟨object, hthere⟩ :=
        Option.isSome_iff_exists.1 ((hs.usable_of_stores hstored).live place rfl)
      exact (ht.kept place object hthere).trans hthere.symm
    | share place => exact hx.elim
  · obtain rfl : x = .share loc := hx
    exact (ht.kept loc _ hget).trans hget.symm

theorem field_eq {x : Handle} (hx : h'.object? x = h.object? x) (owner name : String) :
    h'.field x owner name = h.field x owner name := by
  rw [Heap.field, Heap.field, hx]

theorem follow_eq (ht : h.Twin h') {outside : Multiset Handle} (hs : h.Settled outside)
    (hf : h.Firm) {x : Handle} (hx : h'.object? x = h.object? x) (owner : String)
    (names : List String) : h'.follow owner x names = h.follow owner x names := by
  induction names generalizing owner x with
  | nil => rfl
  | cons name names ih =>
    rw [follow, follow, field_eq hx]
    cases hfield : h.field x owner name with
    | error cause => rfl
    | ok y =>
      obtain ⟨loc, cls, fields, hget, hbound⟩ := field_eq_ok hfield
      exact ih (ht.object?_of_entry hs hf hget (Bindings.mem_of_get? hbound)) _

end Twin

/-- A heap that has never lost an object and never will. -/
structure Whole (h : Heap) : Prop where
  lasting : h.reclaims = false
  full : ∀ loc < h.size, (h.get? loc).isSome = true

theorem Change.whole {h h' : Heap} (hc : h.Change h') (hw : h.Whole) : h'.Whole := by
  cases hc with
  | alloc object =>
    refine ⟨hw.lasting, ?_⟩
    intro loc hloc
    rw [size_alloc] at hloc
    rw [get?_alloc]
    split
    · rfl
    · next hne => exact hw.full loc (Nat.lt_of_le_of_ne (Nat.lt_succ_iff.1 hloc) hne)
  | retain x =>
    refine ⟨by cases x <;> exact hw.lasting, ?_⟩
    intro loc hloc
    rw [size_retain] at hloc
    rw [get?_retain]
    exact hw.full loc hloc
  | release x =>
    rw [release_of_lasting hw.lasting]
    exact hw
  | setField place name x =>
    refine ⟨hw.lasting, ?_⟩
    intro loc hloc
    rw [Heap.setField, size_adjust] at hloc
    rw [get?_setField_bound]
    split
    · rw [Option.isSome_map]
      exact hw.full loc hloc
    · exact hw.full loc hloc

end Heap

end Mython
