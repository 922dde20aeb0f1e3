import Mathlib.Data.Option.Basic
import Mathlib.Data.List.Forall2
import Mython.Proofs.Store.Change
import Mython.Proofs.Store.Ownership
import Mython.Run.Expression

/-! What stands at a place of the first heap stands in the second one too, maybe at another place,
with fields that are alike in turn. -/

namespace Mython

/-- The same names, bound to values that are alike. -/
def Bindings.Like (V : Handle → Handle → Prop) (b b' : Bindings) : Prop :=
  List.Forall₂ (fun entry entry' => entry.1 = entry'.1 ∧ V entry.2 entry'.2) b.entries b'.entries

/-- Two objects that differ in nothing but fields that are alike. -/
inductive Object.Like (V : Handle → Handle → Prop) : Object → Object → Prop
  | plain {object : Object} (h : object.fields? = none) : Like V object object
  | inst (cls : Class) {fields fields' : Bindings} (h : fields.Like V fields') :
      Like V (.inst cls fields) (.inst cls fields')

/-- Two objects that are alike, with as many owners. -/
structure Cell.Like (V : Handle → Handle → Prop) (c c' : Cell) : Prop where
  owners : c'.owners = c.owners
  object : c.object.Like V c'.object

/-- When heaps count as alike: where the places of one are in the other, which handles lead to the
same, and what is to be kept besides. -/
structure Likeness where
  place : Loc → Loc
  handle : Handle → Handle → Prop
  besides : Heap → Heap → Prop
  injective : Function.Injective place
  le_place : ∀ loc, loc ≤ place loc
  absent : handle .absent .absent
  own : ∀ loc, handle (.own loc) (.own (place loc))
  share : ∀ loc, handle (.share loc) (.share (place loc))
  owned? : ∀ {x x'}, handle x x' → x'.owned? = x.owned?.map place
  /-- A handle leads to the place of what it leads to in the first heap, or to nothing in both. -/
  loc? : ∀ {h h' x x'}, besides h h' → handle x x' →
    x'.loc? = x.loc?.map place ∨ h.object? x = none ∧ x'.loc? = none
  size : ∀ {h h'}, besides h h' → h'.size = place h.size
  adjust : ∀ {h h'}, besides h h' → ∀ loc (f f' : Cell → Cell),
    besides (h.adjust loc f) (h'.adjust (place loc) f')
  clear : ∀ {h h'}, besides h h' → ∀ loc, besides (h.clear loc) (h'.clear (place loc))
  alloc : ∀ {h h'}, besides h h' → ∀ object object' : Object,
    besides (h.alloc object).2 (h'.alloc object').2

/-- Two heaps that are alike, place by place. -/
structure Heap.Like (L : Likeness) (h h' : Heap) : Prop where
  reclaims : h'.reclaims = h.reclaims
  besides : L.besides h h'
  cell? : ∀ loc, Option.Rel (Cell.Like L.handle) (h.cell? loc) (h'.cell? (L.place loc))

namespace Bindings.Like

variable {V : Handle → Handle → Prop} {b b' : Bindings}

theorem get? (hb : b.Like V b') (name : String) : Option.Rel V (b.get? name) (b'.get? name) := by
  rcases b with ⟨entries⟩
  rcases b' with ⟨entries'⟩
  simp only [Bindings.Like] at hb
  simp only [Bindings.get?]
  induction hb with
  | nil => exact .none
  | @cons entry entry' rest rest' hentry _ ih =>
    rw [List.lookup_cons, List.lookup_cons, ← hentry.1]
    cases name == entry.1 with
    | true => exact .some hentry.2
    | false => exact ih

theorem set (hb : b.Like V b') (name : String) {x x' : Handle} (hx : V x x') :
    (b.set name x).Like V (b'.set name x') := by
  rcases b with ⟨entries⟩
  rcases b' with ⟨entries'⟩
  simp only [Bindings.Like] at hb
  simp only [Bindings.Like, Bindings.set]
  induction hb with
  | nil => exact .cons ⟨rfl, hx⟩ .nil
  | @cons entry entry' rest rest' hentry hrest ih =>
    rw [put, put, ← hentry.1]
    split
    · exact .cons ⟨rfl, hx⟩ hrest
    · exact .cons ⟨rfl, hentry.2⟩ ih

theorem handles (hb : b.Like V b') : List.Forall₂ V b.handles b'.handles := by
  rw [Bindings.handles, Bindings.handles, List.forall₂_map_left_iff, List.forall₂_map_right_iff]
  exact hb.imp fun _ _ hentry => hentry.2

/-- The value that a name had, if any, is alike. -/
theorem old (hb : b.Like V b') (hnone : V .absent .absent) (name : String) :
    V ((b.get? name).getD .absent) ((b'.get? name).getD .absent) := by
  have hget := hb.get? name
  generalize b.get? name = x, b'.get? name = x' at hget
  cases hget with
  | some hx => exact hx
  | none => exact hnone

theorem of_forall (b : Bindings) (h : ∀ x ∈ b.handles, V x x) : b.Like V b :=
  List.forall₂_same.2 fun _ hentry => ⟨rfl, h _ (List.mem_map_of_mem hentry)⟩

end Bindings.Like

namespace Object.Like

variable {V : Handle → Handle → Prop} {object object' other other' : Object}

theorem kind_eq (ho : object.Like V object') : object'.kind = object.kind := by
  cases ho with
  | plain => rfl
  | inst => rfl

theorem isTrue_eq (ho : object.Like V object') : object'.isTrue = object.isTrue := by
  cases ho with
  | plain => rfl
  | inst => rfl

theorem class?_eq (ho : object.Like V object') : object'.class? = object.class? := by
  cases ho with
  | plain => rfl
  | inst => rfl

theorem equal_eq (ho : object.Like V object') (hr : other.Like V other') :
    object'.equal other' = object.equal other := by
  cases ho with
  | plain =>
    cases hr with
    | plain => rfl
    | inst => cases object <;> rfl
  | inst => rfl

theorem less_eq (ho : object.Like V object') (hr : other.Like V other') :
    object'.less other' = object.less other := by
  cases ho with
  | plain =>
    cases hr with
    | plain => rfl
    | inst => cases object <;> rfl
  | inst => rfl

theorem fields? (ho : object.Like V object') :
    Option.Rel (Bindings.Like V) object.fields? object'.fields? := by
  cases ho with
  | inst cls h => exact .some h
  | plain h =>
    rw [h]
    exact .none

/-- An object owns, in the other heap, the places of what it owned. -/
theorem owned_eq {place : Loc → Loc} (ho : object.Like V object')
    (hV : ∀ {x x'}, V x x' → x'.owned? = x.owned?.map place) :
    object'.owned = object.owned.map place := by
  cases ho with
  | plain h =>
    cases object with
    | inst cls fields => cases h
    | _ => rfl
  | @inst cls fields fields' h =>
    have hhandles := h.handles
    simp only [owned]
    generalize fields.handles = xs, fields'.handles = xs' at hhandles
    induction hhandles with
    | nil => rfl
    | @cons x x' xs xs' hx _ ih =>
      rw [List.filterMap_cons, List.filterMap_cons, hV hx, ih]
      cases x.owned? <;> rfl

end Object.Like

namespace Heap

/-- Letting go never adds an object. -/
theorem live_releaseWithin (n : Nat) (h : Heap) (loc : Loc) :
    (releaseWithin n h loc).live ≤ h.live := by
  have hclear : ∀ (h : Heap) loc, (h.clear loc).live ≤ h.live := by
    intro h loc
    cases hcell : h.cell? loc with
    | some cell => exact (live_clear hcell).le
    | none =>
      have hsame : ∀ other, (h.clear loc).cell? other = h.cell? other := by
        intro other
        rw [cell?_clear]
        split
        · next hloc => rw [← hloc, hcell]
        · rfl
      simp only [live, size_clear, hsame, le_refl]
  have hsteps := @releaseWithin_of_steps fun h h' => h'.live ≤ h.live
  exact hsteps (fun _ => le_rfl) (fun hfirst hnext => hnext.trans hfirst) hclear
    (fun h loc => (live_adjust h loc _).le) n h loc

/-- More steps than there are objects make no difference. -/
theorem releaseWithin_of_live_le {n n' : Nat} (hn : n ≤ n') {h : Heap} (hlive : h.live ≤ n)
    (loc : Loc) : releaseWithin n' h loc = releaseWithin n h loc := by
  induction n generalizing n' h loc with
  | zero =>
    have hnone : h.cell? loc = none := by
      cases hcell : h.cell? loc with
      | none => rfl
      | some cell =>
        have hless := live_clear hcell
        omega
    cases n' with
    | zero => rfl
    | succ n' => rw [releaseWithin, releaseWithin, hnone]
  | succ n ih =>
    obtain ⟨n', rfl⟩ := Nat.exists_eq_add_of_le' hn
    rw [← Nat.add_assoc, releaseWithin, releaseWithin]
    cases hcell : h.cell? loc with
    | none => rfl
    | some cell =>
      simp only
      split
      · have hless := live_clear hcell
        have hfold : ∀ (locs : List Loc) {h : Heap}, h.live ≤ n →
            locs.foldl (releaseWithin (n' + n)) h = locs.foldl (releaseWithin n) h := by
          intro locs
          induction locs with
          | nil => exact fun _ => rfl
          | cons first rest ihrest =>
            intro h hlive
            rw [List.foldl_cons, List.foldl_cons, ih (Nat.le_add_left n n') hlive]
            exact ihrest ((live_releaseWithin n h first).trans hlive)
        exact hfold _ (by omega)
      · rfl

/-- Only what a handle owns matters when it is retained. -/
theorem retain_eq (h : Heap) (x : Handle) :
    h.retain x = x.owned?.elim h fun loc =>
      h.adjust loc fun cell => { cell with owners := cell.owners + 1 } := by
  cases x <;> rfl

/-- Only what a handle owns matters when it is released. -/
theorem release_eq (h : Heap) (x : Handle) :
    h.release x = x.owned?.elim h fun loc =>
      if h.reclaims then h.releaseWithin h.size loc else h := by
  cases x <;> rfl

end Heap

namespace Heap.Like

variable {L : Likeness} {h h' : Heap} {x x' y y' : Handle}

theorem get? (hh : h.Like L h') (loc : Loc) :
    Option.Rel (Object.Like L.handle) (h.get? loc) (h'.get? (L.place loc)) := by
  have hcell := hh.cell? loc
  rw [Heap.get?, Heap.get?]
  generalize h.cell? loc = c, h'.cell? (L.place loc) = c' at hcell
  cases hcell with
  | some hc => exact .some hc.object
  | none => exact .none

/-- Two handles that are alike lead to nothing, or to objects that are alike at places that belong
together. -/
theorem found (hh : h.Like L h') (hx : L.handle x x') :
    (h.object? x = none ∧ h'.object? x' = none) ∨ ∃ loc object object', x.loc? = some loc ∧
      x'.loc? = some (L.place loc) ∧ h.object? x = some object ∧ h'.object? x' = some object' ∧
      object.Like L.handle object' := by
  rcases L.loc? hh.besides hx with hloc' | ⟨hnone, hloc'⟩
  · cases hloc : x.loc? with
    | none =>
      rw [hloc] at hloc'
      rw [Heap.object?, Heap.object?, hloc, hloc']
      exact Or.inl ⟨rfl, rfl⟩
    | some loc =>
      rw [hloc] at hloc'
      have hget := hh.get? loc
      rw [Heap.object?_eq_get? hloc, Heap.object?_eq_get? hloc']
      cases hobject : h.get? loc with
      | none =>
        rw [hobject] at hget
        cases hobject' : h'.get? (L.place loc) with
        | none => exact Or.inl ⟨rfl, rfl⟩
        | some object' =>
          rw [hobject'] at hget
          cases hget
      | some object =>
        rw [hobject] at hget
        cases hobject' : h'.get? (L.place loc) with
        | none =>
          rw [hobject'] at hget
          cases hget
        | some object' =>
          rw [hobject'] at hget
          cases hget with
          | some ho => exact Or.inr ⟨loc, object, object', rfl, hloc', rfl, rfl, ho⟩
  · rw [hnone, Heap.object?, hloc']
    exact Or.inl ⟨rfl, rfl⟩

theorem object? (hh : h.Like L h') (hx : L.handle x x') :
    Option.Rel (Object.Like L.handle) (h.object? x) (h'.object? x') := by
  rcases hh.found hx with ⟨hnone, hnone'⟩ | ⟨loc, object, object', -, -, hobject, hobject', ho⟩
  · rw [hnone, hnone']
    exact .none
  · rw [hobject, hobject']
    exact .some ho

section Looks

variable (hh : h.Like L h') (hx : L.handle x x')
include hh hx

theorem kind_eq : h'.kind x' = h.kind x := by
  have hobject := hh.object? hx
  rw [Heap.kind, Heap.kind]
  generalize h.object? x = o, h'.object? x' = o' at hobject
  cases hobject with
  | some ho => exact ho.kind_eq
  | none => rfl

theorem isTrue_eq : h'.isTrue x' = h.isTrue x := by
  have hobject := hh.object? hx
  rw [Heap.isTrue, Heap.isTrue]
  generalize h.object? x = o, h'.object? x' = o' at hobject
  cases hobject with
  | some ho => exact ho.isTrue_eq
  | none => rfl

theorem isInstance_eq : h'.isInstance x' = h.isInstance x := by
  rw [isInstance, isInstance, hh.kind_eq hx]

theorem accepting?_eq (name : String) (arity : Nat) :
    h'.accepting? x' name arity = h.accepting? x name arity := by
  have hobject := hh.object? hx
  rw [Heap.accepting?, Heap.accepting?]
  generalize h.object? x = o, h'.object? x' = o' at hobject
  cases hobject with
  | some ho =>
    simp only [Option.bind_eq_bind, Option.bind_some]
    rw [ho.class?_eq]
  | none => rfl

theorem number?_eq : h'.number? x' = h.number? x := by
  have hobject := hh.object? hx
  rw [number?, number?]
  generalize h.object? x = o, h'.object? x' = o' at hobject
  cases hobject with
  | some ho =>
    cases ho with
    | plain => rfl
    | inst => rfl
  | none => rfl

theorem negated_eq : h'.negated x' = h.negated x := by
  rw [negated, negated, hh.number?_eq hx, hh.kind_eq hx]

/-- A field is missing in both heaps for the same reason, or found in both. -/
theorem field (owner name : String) :
    (∃ cause, h.field x owner name = .error cause ∧ h'.field x' owner name = .error cause) ∨
      ∃ y y', h.field x owner name = .ok y ∧ h'.field x' owner name = .ok y' ∧ L.handle y y' := by
  have hobject := hh.object? hx
  rw [Heap.field, Heap.field]
  generalize h.object? x = o, h'.object? x' = o' at hobject
  cases hobject with
  | none => exact Or.inl ⟨_, rfl, rfl⟩
  | @some object object' ho =>
    have hfields := ho.fields?
    rw [Option.bind_some, Option.bind_some]
    generalize object.fields? = f, object'.fields? = f' at hfields
    cases hfields with
    | none => exact Or.inl ⟨_, rfl, rfl⟩
    | @some fields fields' hf =>
      have hget := hf.get? name
      simp only
      generalize fields.get? name = z, fields'.get? name = z' at hget
      cases hget with
      | none => exact Or.inl ⟨_, rfl, rfl⟩
      | some hz => exact Or.inr ⟨_, _, rfl, rfl, hz⟩

theorem follow (owner : String) (names : List String) :
    (∃ cause, h.follow owner x names = .error cause ∧ h'.follow owner x' names = .error cause) ∨
      ∃ y y', h.follow owner x names = .ok y ∧ h'.follow owner x' names = .ok y' ∧
        L.handle y y' := by
  induction names generalizing owner x x' with
  | nil => exact Or.inr ⟨x, x', rfl, rfl, hx⟩
  | cons name names ih =>
    rw [Heap.follow, Heap.follow]
    rcases hh.field hx owner name with ⟨cause, hfound, hfound'⟩ | ⟨y, y', hfound, hfound', hy⟩
    · rw [hfound, hfound']
      exact Or.inl ⟨cause, rfl, rfl⟩
    · rw [hfound, hfound']
      exact ih hy name

section Two

variable (hy : L.handle y y')
include hy

theorem equal_eq : h'.equal x' y' = h.equal x y := by
  have hobject := hh.object? hx
  have hother := hh.object? hy
  rw [Heap.equal, Heap.equal]
  generalize h.object? x = o, h'.object? x' = o' at hobject
  generalize h.object? y = r, h'.object? y' = r' at hother
  cases hobject with
  | none => rfl
  | some ho =>
    cases hother with
    | none => rfl
    | some hr => exact ho.equal_eq hr

theorem less_eq : h'.less x' y' = h.less x y := by
  have hobject := hh.object? hx
  have hother := hh.object? hy
  rw [Heap.less, Heap.less]
  generalize h.object? x = o, h'.object? x' = o' at hobject
  generalize h.object? y = r, h'.object? y' = r' at hother
  cases hobject with
  | none => rfl
  | some ho =>
    cases hother with
    | none => rfl
    | some hr => exact ho.less_eq hr

theorem holds_eq (relation : Relation) : h'.holds relation x' y' = h.holds relation x y := by
  have hequal := hh.equal_eq hx hy
  have hless := hh.less_eq hx hy
  have hmore := hh.less_eq hy hx
  cases relation <;> simp only [holds, hequal, hless, hmore]

theorem onValues_eq (op : ArithOp) : op.onValues h' x' y' = op.onValues h x y := by
  have hobject := hh.object? hx
  have hother := hh.object? hy
  simp only [ArithOp.onValues, hh.kind_eq hx, hh.kind_eq hy]
  generalize h.object? x = o, h'.object? x' = o' at hobject
  generalize h.object? y = r, h'.object? y' = r' at hother
  cases hobject with
  | none => cases op <;> rfl
  | some ho =>
    cases hother with
    | none => cases ho <;> cases op <;> rfl
    | some hr =>
      cases ho with
      | inst => cases op <;> rfl
      | plain =>
        cases hr with
        | plain => rfl
        | inst => cases ‹Object› <;> cases op <;> rfl

end Two

end Looks

theorem adjust (hh : h.Like L h') (loc : Loc) {f f' : Cell → Cell}
    (hf : ∀ c c', Cell.Like L.handle c c' → Cell.Like L.handle (f c) (f' c')) :
    (h.adjust loc f).Like L (h'.adjust (L.place loc) f') where
  reclaims := hh.reclaims
  besides := L.adjust hh.besides loc f f'
  cell? other := by
    have hcell := hh.cell? other
    rw [cell?_adjust, cell?_adjust]
    by_cases hloc : loc = other
    · rw [if_pos hloc, if_pos (congrArg L.place hloc)]
      generalize h.cell? other = c, h'.cell? (L.place other) = c' at hcell
      cases hcell with
      | some hc => exact .some (hf _ _ hc)
      | none => exact .none
    · rw [if_neg hloc, if_neg (fun hplace => hloc (L.injective hplace))]
      exact hcell

theorem clear (hh : h.Like L h') (loc : Loc) : (h.clear loc).Like L (h'.clear (L.place loc)) where
  reclaims := hh.reclaims
  besides := L.clear hh.besides loc
  cell? other := by
    rw [cell?_clear, cell?_clear]
    by_cases hloc : loc = other
    · rw [if_pos hloc, if_pos (congrArg L.place hloc)]
      exact .none
    · rw [if_neg hloc, if_neg (fun hplace => hloc (L.injective hplace))]
      exact hh.cell? other

/-- New objects that are alike are stored at places that belong together. -/
theorem alloc (hh : h.Like L h') {object object' : Object} (ho : object.Like L.handle object') :
    (h.alloc object).2.Like L (h'.alloc object').2 where
  reclaims := hh.reclaims
  besides := L.alloc hh.besides object object'
  cell? other := by
    rw [cell?_alloc, cell?_alloc, L.size hh.besides]
    by_cases hother : other = h.size
    · rw [if_pos hother, if_pos (congrArg L.place hother)]
      exact .some ⟨rfl, ho⟩
    · rw [if_neg hother, if_neg (fun hplace => hother (L.injective hplace))]
      exact hh.cell? other

/-- A new instance shares itself at the place where it is. -/
theorem allocInstance (hh : h.Like L h') (cls : Class) :
    (h.allocInstance cls).2.Like L (h'.allocInstance cls).2 := by
  apply hh.alloc
  rw [L.size hh.besides]
  exact .inst cls (.cons ⟨rfl, L.share h.size⟩ .nil)

theorem retain (hh : h.Like L h') (hx : L.handle x x') : (h.retain x).Like L (h'.retain x') := by
  rw [retain_eq, retain_eq, L.owned? hx]
  cases x.owned? with
  | none => exact hh
  | some loc =>
    apply hh.adjust loc
    intro c c' hc
    exact ⟨congrArg (· + 1) hc.owners, hc.object⟩

/-- Places are emptied at the same moments, because owners are counted alike. -/
theorem releaseWithin (hh : h.Like L h') (n : Nat) (loc : Loc) :
    (h.releaseWithin n loc).Like L (h'.releaseWithin n (L.place loc)) := by
  induction n generalizing h h' loc with
  | zero => exact hh
  | succ n ih =>
    have hfold : ∀ (locs : List Loc) {h h' : Heap}, h.Like L h' →
        (locs.foldl (Heap.releaseWithin n) h).Like L
          ((locs.map L.place).foldl (Heap.releaseWithin n) h') := by
      intro locs
      induction locs with
      | nil => exact fun hh => hh
      | cons first rest ihrest => exact fun hh => ihrest (ih hh first)
    have hcell := hh.cell? loc
    rw [Heap.releaseWithin, Heap.releaseWithin]
    generalize h.cell? loc = c, h'.cell? (L.place loc) = c' at hcell
    cases hcell with
    | none => exact hh
    | some hc =>
      simp only [hc.owners, hc.object.owned_eq L.owned?]
      split
      · exact hfold _ (hh.clear loc)
      · apply hh.adjust loc
        intro c c' hc
        exact ⟨congrArg (· - 1) hc.owners, hc.object⟩

theorem release (hh : h.Like L h') (hx : L.handle x x') :
    (h.release x).Like L (h'.release x') := by
  rw [release_eq, release_eq, L.owned? hx, hh.reclaims]
  cases x.owned? with
  | none => exact hh
  | some loc =>
    simp only [Option.elim_some, Option.map_some]
    split
    · rw [L.size hh.besides, ← releaseWithin_of_live_le (L.le_place h.size) h.live_le_size]
      exact hh.releaseWithin _ loc
    · exact hh

theorem releaseAll (hh : h.Like L h') {xs xs' : List Handle} (hxs : List.Forall₂ L.handle xs xs') :
    (xs.foldl Heap.release h).Like L (xs'.foldl Heap.release h') := by
  induction hxs generalizing h h' with
  | nil => exact hh
  | cons hx _ ih => exact ih (hh.release hx)

theorem setField (hh : h.Like L h') (loc : Loc) (name : String) (hx : L.handle x x') :
    (h.setField loc name x).Like L (h'.setField (L.place loc) name x') := by
  apply hh.adjust loc
  rintro ⟨owners, object⟩ ⟨owners', object'⟩ ⟨howners, hobject⟩
  obtain rfl : owners' = owners := howners
  cases hobject with
  | inst cls h => exact ⟨rfl, .inst cls (h.set name hx)⟩
  | plain h =>
    cases object with
    | inst cls fields => cases h
    | _ => exact ⟨rfl, .plain rfl⟩

/-- The value that a field had, if any, is alike. -/
theorem oldField (hh : h.Like L h') (loc : Loc) (name : String) :
    L.handle
      ((((h.get? loc).bind Object.fields?).bind fun fields => fields.get? name).getD .absent)
      ((((h'.get? (L.place loc)).bind Object.fields?).bind fun fields =>
        fields.get? name).getD .absent) := by
  have hobject := hh.get? loc
  generalize h.get? loc = o, h'.get? (L.place loc) = o' at hobject
  cases hobject with
  | none => exact L.absent
  | @some object object' ho =>
    have hfields := ho.fields?
    rw [Option.bind_some, Option.bind_some]
    generalize object.fields? = f, object'.fields? = f' at hfields
    cases hfields with
    | none => exact L.absent
    | some hf => exact hf.old L.absent name

end Heap.Like

end Mython
