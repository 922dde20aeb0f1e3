import Mython.Proofs.Program.Parts
import Mython.Proofs.Run.Discreet

/-! A realm is made of code, closed under parts, and of places, among them all new ones. A scope
that leads into the realm does so for the whole run. -/

namespace Mython

open Run

/-- Code that may be run and places that may be seen, at a depth of calls. -/
structure Realm where
  code : Code → Prop
  closed : ∀ {a b : Code}, code a → b ∈ a.parts → code b
  places : Loc → Prop
  base : Nat
  new : ∀ loc, base ≤ loc → places loc
  depth : Nat

namespace Realm

/-- The realm one call deeper. -/
def deeper (w : Realm) : Realm := { w with depth := w.depth + 1 }

theorem code_of_contains (w : Realm) {a b : Code} (ha : w.code a) (h : a.Contains b) :
    w.code b := by
  induction h with
  | refl => exact ha
  | tail _ hpart ih => exact w.closed ih hpart

/-- A handle that leads into the realm, or nowhere. -/
def Admits (w : Realm) (x : Handle) : Prop := ∀ loc, x.loc? = some loc → w.places loc

/-- All that is held leads into the realm. -/
def AdmitsAll (w : Realm) (held : Multiset Handle) : Prop := ∀ x ∈ held, w.Admits x

/-- An object of a class in the realm, with fields that lead into it. -/
def Harbours (w : Realm) : Object → Prop
  | .inst c fields => w.code (.cls c) ∧ ∀ x ∈ fields.handles, w.Admits x
  | .cls c => w.code (.cls c)
  | _ => True

/-- The objects in the realm belong there. -/
structure Keeps (w : Realm) (h : Heap) : Prop where
  size : w.base ≤ h.size
  object : ∀ loc object, w.places loc → h.get? loc = some object → w.Harbours object

/-- A state that sees nothing but the realm. -/
structure Covers (w : Realm) (m : Machine) : Prop where
  heap : w.Keeps m.heap
  scope : ∀ x ∈ m.scope.handles, w.Admits x
  depth : m.depth = w.depth

variable {w : Realm} {h : Heap} {m : Machine} {x y : Handle}

theorem admits_absent (w : Realm) : w.Admits .absent := by
  rintro loc ⟨⟩

theorem admits_iff_held : w.Admits x ↔ w.AdmitsAll x.held := by
  constructor
  · intro hx y hy
    rw [(Handle.mem_held.1 hy).1]
    exact hx
  · intro hx
    by_cases hne : x = .absent
    · rw [hne]
      exact w.admits_absent
    · exact hx x (Handle.mem_held.2 ⟨rfl, hne⟩)

theorem admitsAll_zero (w : Realm) : w.AdmitsAll 0 := fun x hx => absurd hx (Multiset.notMem_zero x)

theorem admitsAll_add {p q : Multiset Handle} :
    w.AdmitsAll (p + q) ↔ w.AdmitsAll p ∧ w.AdmitsAll q := by
  constructor
  · intro h
    exact ⟨fun x hx => h x (Multiset.mem_add.2 (Or.inl hx)),
      fun x hx => h x (Multiset.mem_add.2 (Or.inr hx))⟩
  · rintro ⟨hp, hq⟩ x hx
    exact (Multiset.mem_add.1 hx).elim (hp x) (hq x)

namespace Keeps

/-- A heap whose objects were all there before. -/
theorem of_get? {h' : Heap} (hk : w.Keeps h) (hsize : h.size ≤ h'.size)
    (hget : ∀ loc object, h'.get? loc = some object → h.get? loc = some object) : w.Keeps h' where
  size := hk.size.trans hsize
  object loc object hloc hobject := hk.object loc object hloc (hget loc object hobject)

theorem retain (hk : w.Keeps h) (x : Handle) : w.Keeps (h.retain x) := by
  apply hk.of_get?
  · exact Nat.le_of_eq (Heap.size_retain h x).symm
  · intro loc object hget
    rwa [Heap.get?_retain] at hget

theorem release (hk : w.Keeps h) (x : Handle) : w.Keeps (h.release x) :=
  hk.of_get? (Nat.le_of_eq (Heap.size_release h x).symm) fun _ _ => Heap.get?_of_release

theorem releaseAll (hk : w.Keeps h) (xs : List Handle) : w.Keeps (xs.foldl Heap.release h) := by
  induction xs generalizing h with
  | nil => exact hk
  | cons x xs ih => exact ih (hk.release x)

theorem alloc (hk : w.Keeps h) {object : Object} (ho : w.Harbours object) :
    w.Keeps (h.alloc object).2 := by
  refine ⟨?_, ?_⟩
  · rw [Heap.size_alloc]
    exact hk.size.trans (Nat.le_succ _)
  · intro loc object' hloc hget
    rw [Heap.get?_alloc] at hget
    split at hget
    · cases hget
      exact ho
    · exact hk.object loc object' hloc hget

theorem allocInstance (hk : w.Keeps h) {c : Class} (hc : w.code (.cls c)) :
    w.Keeps (h.allocInstance c).2 := by
  apply hk.alloc
  refine ⟨hc, fun x hx => ?_⟩
  obtain rfl : x = .share h.size := by simpa [Bindings.handles] using hx
  rintro loc ⟨⟩
  exact w.new _ hk.size

theorem setField (hk : w.Keeps h) (hx : w.Admits x) (loc : Loc) (name : String) :
    w.Keeps (h.setField loc name x) := by
  refine ⟨?_, ?_⟩
  · rw [Heap.setField, Heap.size_adjust]
    exact hk.size
  · intro place object hplace hget
    rw [Heap.get?_setField_bound] at hget
    split at hget
    · obtain ⟨before, hbefore, rfl⟩ := Option.map_eq_some_iff.1 hget
      have hold := hk.object place before hplace hbefore
      cases before with
      | inst c fields =>
        refine ⟨hold.1, fun y hy => ?_⟩
        obtain ⟨entry, hentry, rfl⟩ := List.mem_map.1 hy
        rcases Bindings.mem_put hentry with rfl | hentry
        · exact hx
        · exact hold.2 _ (List.mem_map_of_mem hentry)
      | _ => exact hold
    · exact hk.object place object hplace hget

/-- A field that is read leads into the realm again. -/
theorem field (hk : w.Keeps h) {owner name : String} (hx : w.Admits x)
    (hf : h.field x owner name = .ok y) : w.Admits y := by
  rw [Heap.field] at hf
  split at hf
  · cases hf
  · next fields hfields =>
    split at hf
    · cases hf
    · next found hget =>
      cases hf
      obtain ⟨object, hobject, hof⟩ := Option.bind_eq_some_iff.1 hfields
      obtain ⟨loc, hloc, hplace⟩ := Option.bind_eq_some_iff.1 hobject
      have hin := hk.object loc object (hx loc hloc) hplace
      cases object with
      | inst c bindings =>
        cases hof
        exact hin.2 _ (Bindings.mem_handles_of_get? hget)
      | _ => cases hof

theorem follow (hk : w.Keeps h) {owner : String} {names : List String} (hx : w.Admits x)
    (hf : h.follow owner x names = .ok y) : w.Admits y := by
  induction names generalizing owner x with
  | nil =>
    cases hf
    exact hx
  | cons name names ih =>
    rw [Heap.follow] at hf
    cases hfield : h.field x owner name with
    | error cause =>
      rw [hfield] at hf
      cases hf
    | ok z =>
      rw [hfield] at hf
      exact ih (hk.field hx hfield) hf

end Keeps

namespace Covers

theorem withHeap {h : Heap} (hm : w.Covers m) (hk : w.Keeps h) : w.Covers { m with heap := h } :=
  ⟨hk, hm.scope, hm.depth⟩

theorem retain (hm : w.Covers m) (x : Handle) :
    w.Covers { m with heap := m.heap.retain x } := hm.withHeap (hm.heap.retain x)

theorem release (hm : w.Covers m) (x : Handle) :
    w.Covers { m with heap := m.heap.release x } := hm.withHeap (hm.heap.release x)

theorem assign (hm : w.Covers m) (name : String) (hx : w.Admits x) :
    w.Covers (Run.assign name x m).2 := by
  refine ⟨hm.heap.release _, ?_, hm.depth⟩
  intro y hy
  obtain ⟨entry, hentry, rfl⟩ := List.mem_map.1 hy
  rcases Bindings.mem_put hentry with rfl | hentry
  · exact hx
  · exact hm.scope _ (List.mem_map_of_mem hentry)

theorem assignField (hm : w.Covers m) (loc : Loc) (name : String) (hx : w.Admits x) :
    w.Covers (Run.assignField loc name x m).2 :=
  hm.withHeap ((hm.heap.setField hx loc name).release _)

end Covers

end Realm

/-- How a run ends: still in the realm, with what it hands over. Only if it may be `short` of fuel
can it end for that. -/
def Run.Lands (w : Realm) (short : Prop) (q : α → Multiset Handle) :
    Except Halt α × Machine → Prop
  | (.ok a, m) => w.Covers m ∧ w.AdmitsAll (q a)
  | (.error e, m) => w.Covers m ∧ (e = .exhausted → short)

/-- A fault in a realm ends a run there. -/
theorem Run.Lands.fault {w : Realm} {short : Prop} {q : α → Multiset Handle} {m : Machine}
    (hm : w.Covers m) (fault : Fault) : Run.Lands w short q (.error (.fault fault), m) :=
  ⟨hm, fun h => Halt.noConfusion h⟩

/-- A primitive step that brings nothing into a realm that does not belong there. -/
def Primitive.Made (w : Realm) {α : Type} {p : Multiset Handle} {f : Run α}
    {q : α → Multiset Handle} : Primitive p f q → Prop
  | @Primitive.fresh object _ => w.Harbours object
  | .freshInstance c => w.code (.cls c)
  | @Primitive.compute _ look _ _ => ∀ h object, look h = .ok object → w.Harbours object
  | .fetch x _ _ _ => w.Admits x
  | _ => True

/-- A script that is made of the code of a realm, as far as a run of it from a state goes. A field
is assigned only by an assignment in the code, whose object has just been evaluated. -/
def Script.Made (w : Realm) (g : Guest) {α : Type} {p : Multiset Handle} {f : Guest → Run α}
    {q : α → Multiset Handle} : Script p f q → Machine → Prop
  | .step h, _ => h.Made w
  | .frame _ h _, _ => h.Made w
  | @Script.bind _ _ _ f _ q _ h hk, m => h.Made w g m ∧
    ∀ a m', w.Covers m' → w.AdmitsAll (q a) → f g m = (.ok a, m') → (hk a).Made w g m'
  | .holding _ h, m => h.Made w g m
  | .keeping _ h, m => h.Made w g m
  | @Script.seize _ _ look _ _ _ _ hb ho, m =>
    match look m.heap with
    | .ok loc => (hb loc).Made w g { m with heap := m.heap.retain (.own loc) }
    | .error found => (ho found).Made w g m
  | .bestow x _ field _ h, m =>
    (∃ object value pos before, w.code (.stmt (.assignField object field value pos)) ∧
      object.eval g before = (.ok x, m)) ∧
    ∀ loc, instanceAt x m.heap = .ok loc →
      h.Made w g { m with heap := m.heap.retain (.own loc) }
  | .call x _ _ _, _ => w.Admits x
  | .render x _, _ => w.Admits x
  | .conv h _ _ _, m => h.Made w g m

/-- Requests to a guest stay in a realm. -/
structure Guest.Lands (w : Realm) (short : Prop) (g : Guest) : Prop where
  call : ∀ x name args line m, w.Covers m → w.Admits x → w.AdmitsAll (Handle.heldAll args) →
    Run.Lands w short Handle.held (g.call x name args line m)
  render : ∀ x line m, w.Covers m → w.Admits x →
    Run.Lands w short (fun _ => 0) (g.render x line m)

section Landing

variable {w : Realm} {short : Prop} {g : Guest} {m : Machine}

theorem Primitive.lands {p : Multiset Handle} {f : Run α} {q : α → Multiset Handle}
    (h : Primitive p f q) (hmade : h.Made w) (hm : w.Covers m) (hp : w.AdmitsAll p) :
    Run.Lands w short q (f m) := by
  have hnew : w.AdmitsAll (Handle.own m.heap.size).held := by
    rw [← Realm.admits_iff_held]
    rintro loc ⟨⟩
    exact w.new _ hm.heap.size
  cases h with
  | pure a q => exact ⟨hm, hp⟩
  | ask look => exact ⟨hm, hp⟩
  | raise line hc q => exact .fault hm _
  | fresh ho => exact ⟨hm.withHeap (hm.heap.alloc hmade), hnew⟩
  | freshInstance c => exact ⟨hm.withHeap (hm.heap.allocInstance hmade), hnew⟩
  | @compute line look ho hc =>
    rw [Run.compute, ask_bind]
    cases hl : look m.heap with
    | ok object => exact ⟨hm.withHeap (hm.heap.alloc (hmade _ _ hl)), hnew⟩
    | error cause => exact .fault hm _
  | path root fields line =>
    rw [Run.path]
    cases hroot : m.scope.get? root with
    | none => exact .fault hm _
    | some x =>
      have hx := hm.scope x (Bindings.mem_handles_of_get? hroot)
      cases hfollow : m.heap.follow root x fields with
      | error cause =>
        simp only [hfollow]
        exact .fault hm _
      | ok y =>
        simp only [hfollow]
        exact ⟨hm.retain y, Realm.admits_iff_held.1 (hm.heap.follow hx hfollow)⟩
  | fetch x owner name line =>
    rw [Run.fetch, ask_bind]
    cases hf : m.heap.field x owner name with
    | error cause => exact .fault hm _
    | ok y => exact ⟨hm.retain y, Realm.admits_iff_held.1 (hm.heap.field hmade hf)⟩
  | retain x => exact ⟨hm.retain x, Realm.admitsAll_add.2 ⟨hp, hp⟩⟩
  | release x => exact ⟨hm.release x, w.admitsAll_zero⟩
  | releaseAll xs => exact ⟨hm.withHeap (hm.heap.releaseAll xs), w.admitsAll_zero⟩
  | assign name x => exact ⟨hm.assign name (Realm.admits_iff_held.2 hp), w.admitsAll_zero⟩
  | write line text =>
    rw [Run.write]
    split
    · exact ⟨⟨hm.heap, hm.scope, hm.depth⟩, w.admitsAll_zero⟩
    · exact .fault hm _

namespace Run.Lands

variable {q : α → Multiset Handle}

theorem covers {r : Except Halt α × Machine} (h : Lands w short q r) : w.Covers r.2 := by
  rcases r with ⟨e | a, m⟩
  · exact h.1
  · exact h.1

theorem holding {f : Run α} (h : Lands w short q (f m)) (x : Handle) :
    Lands w short q (holding x f m) := by
  rw [Run.holding]
  rcases hf : f m with ⟨e | a, m'⟩
  · rw [hf] at h
    exact ⟨h.1.release x, h.2⟩
  · rw [hf] at h
    exact ⟨h.1.release x, h.2⟩

theorem keeping {f : Run α} (h : Lands w short q (f m)) {x : Handle} (hx : w.AdmitsAll x.held) :
    Lands w short (fun a => x.held + q a) (keeping x f m) := by
  rcases hf : f m with ⟨e | a, m'⟩
  · rw [hf] at h
    rw [keeping_of_error hf]
    exact ⟨h.1.release x, h.2⟩
  · rw [hf] at h
    rw [keeping_of_ok hf]
    exact ⟨h.1, Realm.admitsAll_add.2 ⟨hx, h.2⟩⟩

theorem bestow {f : Run Handle} (h : Lands w short Handle.held (f m)) (loc : Loc)
    (field : String) : Lands w short Completion.held (bestow loc field f m) := by
  rw [Run.bestow]
  rcases hf : f m with ⟨e | y, m'⟩
  · rw [hf] at h
    rw [bind_of_error hf]
    exact h
  · rw [hf] at h
    rw [bind_of_ok hf, retain_bind]
    exact ⟨(h.1.retain y).assignField loc field (Realm.admits_iff_held.2 h.2), h.2⟩

end Run.Lands

/-- A script of the code of a realm stays in it, if requests do. -/
theorem Script.lands (hg : g.Lands w short) {p : Multiset Handle} {f : Guest → Run α}
    {q : α → Multiset Handle} (h : Script p f q) (hmade : h.Made w g m) (hm : w.Covers m)
    (hp : w.AdmitsAll p) : Run.Lands w short q (f g m) := by
  -- By induction on the script; the state is general, because each part is run in another one.
  induction h generalizing m with
  | step h => exact h.lands hmade hm hp
  | @frame _ p f q rest h hf =>
    obtain ⟨hown, hrest⟩ := Realm.admitsAll_add.1 hp
    have hlands : Run.Lands w short q (f m) := h.lands hmade hm hown
    obtain ⟨a, m', hrun⟩ := hf m
    simp only [hrun] at hlands ⊢
    exact ⟨hlands.1, Realm.admitsAll_add.2 ⟨hlands.2, hrest⟩⟩
  | @bind _ _ _ f k q r h hk ih ihk =>
    have hfirst := ih hmade.1 hm hp
    beta_reduce
    rcases hf : f g m with ⟨e | a, m'⟩
    · rw [hf] at hfirst
      rw [bind_of_error hf]
      exact hfirst
    · rw [hf] at hfirst
      rw [bind_of_ok hf]
      exact ihk a (hmade.2 a m' hfirst.1 hfirst.2 hf) hfirst.1 hfirst.2
  | holding x _ ih => exact (ih hmade hm (Realm.admitsAll_add.1 hp).2).holding x
  | keeping x _ ih =>
    obtain ⟨hx, hrest⟩ := Realm.admitsAll_add.1 hp
    exact (ih hmade hm hrest).keeping hx
  | @seize _ _ look body other q _ hb ho ihb iho =>
    rw [Script.Made] at hmade
    beta_reduce
    cases hl : look m.heap with
    | ok loc =>
      rw [hl] at hmade
      rw [seize_of_ok hl, retain_bind]
      exact (ihb loc hmade (hm.retain _) w.admitsAll_zero).holding (.own loc)
    | error found =>
      rw [hl] at hmade
      rw [seize_of_error hl]
      exact iho found hmade hm hp
  | bestow x describe field line h ih =>
    beta_reduce
    cases hl : instanceAt x m.heap with
    | ok loc =>
      rw [seize_of_ok hl, retain_bind]
      exact ((ih (hmade.2 loc hl) (hm.retain _) hp).bestow loc field).holding (.own loc)
    | error found =>
      rw [seize_of_error hl]
      exact .fault hm _
  | call x name args line => exact hg.call x name args line m hm hmade hp
  | render x line => exact hg.render x line m hm hmade
  | conv _ hp' hf hq ih =>
    obtain rfl := funext hq
    rw [← hf]
    exact ih hmade hm (hp' ▸ hp)

end Landing

namespace Script.Made

variable {w : Realm} {g : Guest} {m : Machine} {p : Multiset Handle}

theorem branch {c : Prop} [Decidable c] {f f' : Guest → Run α} {q : α → Multiset Handle}
    {s : Script p f q} {s' : Script p f' q} (h : s.Made w g m) (h' : s'.Made w g m) :
    (Script.branch c s s').Made w g m := by
  rw [Script.branch]
  split
  · exact h
  · exact h'

theorem asking {look : Heap → α} {k : Guest → α → Run β} {q : β → Multiset Handle}
    {hk : ∀ a, Script p (fun g => k g a) q} (h : ∀ a m', (hk a).Made w g m') :
    (Script.asking look hk).Made w g m :=
  ⟨trivial, fun a m' _ _ _ => h a m'⟩

/-- A value that is computed and then held leads into the realm. -/
theorem hold {f : Guest → Run Handle} {k : Guest → Handle → Run α} {q : α → Multiset Handle}
    {s : Script p f Handle.held} {sk : ∀ x, Script 0 (fun g => k g x) q} (h : s.Made w g m)
    (hk : ∀ x m', w.Admits x → f g m = (.ok x, m') → (sk x).Made w g m') :
    (s.hold sk).Made w g m :=
  ⟨h, fun x m' _ hx hf => hk x m' (Realm.admits_iff_held.2 hx) hf⟩

end Script.Made

section Code

variable {w : Realm} {g : Guest}

theorem Run.made_arithmetic (op : ArithOp) {x y : Handle} (line : Nat) (hx : w.Admits x)
    (hy : w.Admits y) (m : Machine) : (arithmeticScript op x y line).Made w g m := by
  apply Script.Made.asking
  intro left m'
  apply Script.Made.branch
  · exact hx
  apply Script.Made.asking
  intro right m'
  apply Script.Made.branch
  · exact hy
  intro h object hvalue
  obtain ⟨_, rfl⟩ | ⟨_, rfl⟩ := ArithOp.onValues_ok hvalue <;> trivial

theorem Run.made_prepare {c : Class} {x : Handle} {args : List Expr} {line : Nat} {m : Machine}
    {s : Script 0 (fun g => Expr.evalAll g args) Handle.heldAll} (h : s.Made w g m)
    (hx : w.Admits x) : (prepareScript c x line s).Made w g m :=
  ⟨h, fun _ _ _ _ _ => .branch ⟨hx, fun _ _ _ _ _ => trivial⟩ trivial⟩

mutual

/-- An expression in the code of a realm is evaluated by that code. -/
theorem Expr.made : (e : Expr) → w.code (.expr e) → ∀ m, e.script.Made w g m
  | .number _ _, _, _ | .text _ _, _, _ | .truth _ _, _, _ | .none _, _, _
  | .path _ _ _, _, _ => trivial
  | .field object name pos, h, m => by
    have hobject : w.code (.expr object) := w.closed h (by simp [Code.parts])
    exact .hold (object.made hobject m) fun x m' hx _ => hx
  | .call object method args pos, h, m => by
    have hobject : w.code (.expr object) := w.closed h (by simp [Code.parts])
    have hargs : ∀ e ∈ args, w.code (.expr e) := fun e he => w.closed h (by simp [Code.parts, he])
    apply Script.Made.hold (object.made hobject m)
    intro x m' hx _
    apply Script.Made.asking
    intro found m'
    exact .branch ⟨Expr.madeAll args hargs m', fun _ _ _ _ _ => hx⟩ trivial
  | .construct c args pos, h, m => by
    have hclass : w.code (.cls c) := w.closed h (by simp [Code.parts])
    have hargs : ∀ e ∈ args, w.code (.expr e) := fun e he => w.closed h (by simp [Code.parts, he])
    refine ⟨hclass, fun x m' _ hx _ => ⟨?_, fun _ _ _ _ _ => trivial⟩⟩
    exact made_prepare (Expr.madeAll args hargs m') (Realm.admits_iff_held.2 hx)
  | .stringify arg pos, h, m => by
    have harg : w.code (.expr arg) := w.closed h (by simp [Code.parts])
    exact ⟨arg.made harg m, fun x m' _ hx _ =>
      ⟨Realm.admits_iff_held.2 hx, fun _ _ _ _ _ => trivial⟩⟩
  | .arith op left right pos, h, m => by
    have hleft : w.code (.expr left) := w.closed h (by simp [Code.parts])
    have hright : w.code (.expr right) := w.closed h (by simp [Code.parts])
    refine ⟨left.made hleft m, fun x m' _ _ _ => ⟨right.made hright m', fun y m'' _ hxy _ => ?_⟩⟩
    obtain ⟨hx, hy⟩ := Realm.admitsAll_add.1 hxy
    exact made_arithmetic op pos.line (Realm.admits_iff_held.2 hx) (Realm.admits_iff_held.2 hy) m''
  | .conj left right _, h, m => by
    have hleft : w.code (.expr left) := w.closed h (by simp [Code.parts])
    have hright : w.code (.expr right) := w.closed h (by simp [Code.parts])
    apply Script.Made.hold (left.made hleft m)
    intro x m' _ _
    apply Script.Made.asking
    intro found m'
    apply Script.Made.branch
    · exact .hold (right.made hright m') fun y m'' _ _ => .asking fun _ _ => trivial
    · trivial
  | .disj left right _, h, m => by
    have hleft : w.code (.expr left) := w.closed h (by simp [Code.parts])
    have hright : w.code (.expr right) := w.closed h (by simp [Code.parts])
    apply Script.Made.hold (left.made hleft m)
    intro x m' _ _
    apply Script.Made.asking
    intro found m'
    apply Script.Made.branch
    · trivial
    · exact .hold (right.made hright m') fun y m'' _ _ => .asking fun _ _ => trivial
  | .compare relation left right _, h, m => by
    have hleft : w.code (.expr left) := w.closed h (by simp [Code.parts])
    have hright : w.code (.expr right) := w.closed h (by simp [Code.parts])
    apply Script.Made.hold (left.made hleft m)
    intro x m' _ _
    exact .hold (right.made hright m') fun y m'' _ _ => .asking fun _ _ => trivial
  | .negate operand pos, h, m => by
    have hoperand : w.code (.expr operand) := w.closed h (by simp [Code.parts])
    apply Script.Made.hold (operand.made hoperand m)
    intro x m' _ _ heap object hvalue
    obtain ⟨_, rfl⟩ := Heap.negated_ok hvalue
    trivial
  | .not operand _, h, m => by
    have hoperand : w.code (.expr operand) := w.closed h (by simp [Code.parts])
    exact .hold (operand.made hoperand m) fun x m' _ _ => .asking fun _ _ => trivial

theorem Expr.madeAll : (es : List Expr) → (∀ e ∈ es, w.code (.expr e)) →
    ∀ m, (Expr.scriptAll es).Made w g m
  | [], _, _ => trivial
  | e :: es, h, m =>
    ⟨e.made (h e List.mem_cons_self) m, fun _ m' _ _ _ =>
      ⟨Expr.madeAll es (fun e he => h e (List.mem_cons_of_mem _ he)) m', fun _ _ _ _ _ => trivial⟩⟩

end

theorem Expr.made_textAll (line : Nat) (es : List Expr) (h : ∀ e ∈ es, w.code (.expr e))
    (m : Machine) : (Expr.textAllScript line es).Made w g m := by
  induction es generalizing m with
  | nil => trivial
  | cons e es ih =>
    refine ⟨e.made (h e List.mem_cons_self) m, fun x m' _ hx _ => ?_⟩
    refine ⟨Realm.admits_iff_held.2 hx, fun _ m'' _ _ _ => ?_⟩
    exact ⟨ih (fun e he => h e (List.mem_cons_of_mem _ he)) m'', fun _ _ _ _ _ => trivial⟩

theorem Run.made_assign (name : String) (x : Handle) (m : Machine) :
    (assignScript name x).Made w g m :=
  ⟨trivial, fun _ _ _ _ _ => ⟨trivial, fun _ _ _ _ _ => trivial⟩⟩

mutual

/-- So is a statement in it executed. -/
theorem Stmt.made : (s : Stmt) → w.code (.stmt s) → ∀ m, s.script.Made w g m
  | .assign name value _, h, m => by
    have hvalue : w.code (.expr value) := w.closed h (by simp [Code.parts])
    exact ⟨value.made hvalue m, fun x m' _ _ _ => made_assign name x m'⟩
  | .assignField object field value pos, h, m => by
    have hobject : w.code (.expr object) := w.closed h (by simp [Code.parts])
    have hvalue : w.code (.expr value) := w.closed h (by simp [Code.parts])
    apply Script.Made.hold (object.made hobject m)
    intro target m' _ hrun
    exact ⟨⟨object, value, pos, m, h, hrun⟩, fun loc _ => value.made hvalue _⟩
  | .print args pos, h, m => by
    have hargs : ∀ e ∈ args, w.code (.expr e) := fun e he => w.closed h (by simp [Code.parts, he])
    exact ⟨Expr.made_textAll pos.line args hargs m, fun _ _ _ _ _ =>
      ⟨trivial, fun _ _ _ _ _ => trivial⟩⟩
  | .ret (some value) _, h, m => by
    have hvalue : w.code (.expr value) := w.closed h (by simp [Code.parts])
    exact ⟨value.made hvalue m, fun _ _ _ _ _ => trivial⟩
  | .ret none _, _, _ => trivial
  | .ifThen condition body _, h, m => by
    have hcondition : w.code (.expr condition) := w.closed h (by simp [Code.parts])
    have hbody : ∀ s ∈ body, w.code (.stmt s) := fun s hs => w.closed h (by simp [Code.parts, hs])
    apply Script.Made.hold (condition.made hcondition m)
    intro x m' _ _
    apply Script.Made.asking
    intro found m'
    exact .branch (Stmt.madeAll body hbody m') trivial
  | .ifElse condition body other _, h, m => by
    have hcondition : w.code (.expr condition) := w.closed h (by simp [Code.parts])
    have hbody : ∀ s ∈ body, w.code (.stmt s) := fun s hs => w.closed h (by simp [Code.parts, hs])
    have hother : ∀ s ∈ other, w.code (.stmt s) := fun s hs => w.closed h (by simp [Code.parts, hs])
    apply Script.Made.hold (condition.made hcondition m)
    intro x m' _ _
    apply Script.Made.asking
    intro found m'
    exact .branch (Stmt.madeAll body hbody m') (Stmt.madeAll other hother m')
  | .define c _, h, m => by
    have hclass : w.code (.cls c) := w.closed h (by simp [Code.parts])
    exact ⟨hclass, fun x m' _ _ _ => made_assign c.name x m'⟩
  | .eval e, h, m => by
    have he : w.code (.expr e) := w.closed h (by simp [Code.parts])
    exact ⟨e.made he m, fun _ _ _ _ _ => trivial⟩

theorem Stmt.madeAll : (ss : List Stmt) → (∀ s ∈ ss, w.code (.stmt s)) →
    ∀ m, (Stmt.scriptAll ss).Made w g m
  | [], _, _ => trivial
  | s :: ss, h, m => by
    have hrest : ∀ s ∈ ss, w.code (.stmt s) := fun s hs => h s (List.mem_cons_of_mem _ hs)
    refine ⟨s.made (h s List.mem_cons_self) m, ?_⟩
    rintro (x | x) m' _ _ _
    · exact ⟨trivial, fun _ m'' _ _ _ => Stmt.madeAll ss hrest m''⟩
    · trivial

end

theorem Program.made {p : Program} (h : ∀ s ∈ p.body, w.code (.stmt s)) (m : Machine) :
    p.script.Made w g m := by
  refine ⟨Stmt.madeAll p.body h m, ?_⟩
  rintro (x | x) m' _ _ _ <;> trivial

namespace Guest

theorem made_assignAll (names : List String) (xs : List Handle) (h : names.length = xs.length)
    (m : Machine) : (assignAllScript names xs h).Made w g m := by
  induction names, xs, h using assignAllScript.induct generalizing m with
  | case1 => trivial
  | case2 name names x xs h ih => exact ⟨trivial, fun _ m' _ _ _ => ih m'⟩

/-- The body of a method in the code of a realm is run by that code. -/
theorem made_body {method : Method} {args : List Handle} (harity : method.arity = args.length)
    (h : w.code (.method method)) (m : Machine) :
    (bodyScript method args harity).Made w g m := by
  have hbody : ∀ s ∈ method.body, w.code (.stmt s) := fun s hs =>
    w.closed h (by simp [Code.parts, hs])
  refine ⟨made_assignAll method.params args harity m, fun _ m' _ _ _ => ?_⟩
  refine ⟨Stmt.madeAll method.body hbody m', ?_⟩
  rintro (x | x) m'' _ _ _
  · exact ⟨trivial, fun _ _ _ _ _ => trivial⟩
  · trivial

theorem made_textOf {x : Handle} (line : Nat) (hx : w.Admits x) (m : Machine) :
    (textOfScript x line).Made w g m :=
  .hold hx fun _ _ hy _ => hy

theorem made_otherText (line : Nat) (place : Option Loc) {found : Option Object}
    (h : ∀ c, found = some (.cls c) → w.code (.cls c)) (m : Machine) :
    (otherTextScript line place found).Made w g m := by
  cases place with
  | none => cases found <;> trivial
  | some loc =>
    cases found with
    | none => trivial
    | some object =>
      cases object with
      | cls c =>
        apply Script.Made.branch
        · exact .hold (h c rfl) fun y m' hy _ => made_textOf line hy m'
        · trivial
      | _ => trivial

/-- A value in a realm is put into text by the code of the realm: a class found there belongs to
it. -/
theorem made_text {x : Handle} (line : Nat) {m : Machine} (hm : w.Covers m) (hx : w.Admits x) :
    (textScript x line).Made w g m := by
  simp only [textScript, Script.of_run, Script.Made]
  cases hs : speaker x m.heap with
  | ok loc => exact made_textOf line hx _
  | error found =>
    apply made_otherText
    intro c hfound
    rw [speaker_error hs] at hfound
    obtain ⟨loc, hloc, hget⟩ := Option.bind_eq_some_iff.1 hfound
    exact hm.heap.object loc _ (hx loc hloc) hget

end Guest

end Code

/-- A call that is made runs a method of the class of its receiver. -/
theorem Machine.dispatch_method {m : Machine} {limit args : Nat} {x : Handle} {name : String}
    {loc : Loc} {method : Method} (h : m.dispatch limit x name args = .ok (loc, method)) :
    ∃ c fields, m.heap.get? loc = some (.inst c fields) ∧ c.method? name = some method := by
  rw [dispatch] at h
  split at h
  · next place c fields hloc hobject =>
    split at h
    · cases h
    · next found hmethod =>
      split at h
      · cases h
      · split at h
        · cases h
        · cases h
          rw [Heap.object?_eq_get? hloc] at hobject
          exact ⟨c, fields, hobject, hmethod⟩
  · cases h
  · cases h

namespace Realm

variable {w : Realm} {m : Machine}

theorem keeps_deeper {h : Heap} : w.deeper.Keeps h ↔ w.Keeps h :=
  ⟨fun hk => ⟨hk.size, hk.object⟩, fun hk => ⟨hk.size, hk.object⟩⟩

/-- A call on a value in the realm runs code of the realm. -/
theorem Covers.dispatch (hm : w.Covers m) {limit args : Nat} {x : Handle} {name : String}
    {loc : Loc} {method : Method} (hx : w.Admits x)
    (h : m.dispatch limit x name args = .ok (loc, method)) :
    w.places loc ∧ w.code (.method method) := by
  obtain ⟨hloc, -, -, -⟩ := Machine.dispatch_ok h
  obtain ⟨c, fields, hget, hmethod⟩ := Machine.dispatch_method h
  have hplace := hx loc hloc
  have hin := hm.heap.object loc _ hplace hget
  exact ⟨hplace, w.code_of_contains hin.1 (Class.contains_of_method? hmethod)⟩

/-- The body of a method starts in the realm one call deeper. -/
theorem Covers.entered (hm : w.Covers m) {loc : Loc} (hloc : w.places loc) :
    w.deeper.Covers (m.entered loc) where
  heap := keeps_deeper.2 ((hm.heap.retain (.own loc)).retain (.own loc))
  scope x hx := by
    obtain rfl : x = .own loc := by simpa [Machine.entered, Bindings.handles] using hx
    rintro place ⟨⟩
    exact hloc
  depth := congrArg (· + 1) hm.depth

end Realm

/-- Behind a scope of its own a run is back in the realm around it: the scope is that one, and the
depth what it was. -/
theorem Run.Lands.inScope {w : Realm} {short : Prop} {q : α → Multiset Handle} {f : Run α}
    {scope : Bindings} {m : Machine} (hm : w.Covers m)
    (h : Lands w.deeper short q (f { m with scope, depth := m.depth + 1 })) :
    Lands w short q (Run.inScope scope f m) := by
  have hback : ∀ m', w.deeper.Covers m' → w.Covers
      ⟨m'.scope.handles.foldl Heap.release m'.heap, m.scope, m'.sink, m'.depth - 1⟩ := by
    intro m' hm'
    exact ⟨(Realm.keeps_deeper.1 hm'.heap).releaseAll _, hm.scope, by rw [hm'.depth]; rfl⟩
  rw [Run.inScope]
  rcases hf : f { m with scope, depth := m.depth + 1 } with ⟨e | a, m'⟩
  · rw [hf] at h
    exact ⟨hback m' h.1, h.2⟩
  · rw [hf] at h
    exact ⟨hback m' h.1, h.2⟩

/-- A call stays in the realm if the body of its method does, one call deeper. -/
theorem Guest.lands_around {w : Realm} {short : Prop} {limit : Nat}
    {run : Method → List Handle → Run Handle}
    (hrun : w.depth < limit → ∀ method args m, method.arity = args.length →
      w.code (.method method) → w.deeper.Covers m → w.deeper.AdmitsAll (Handle.heldAll args) →
      Run.Lands w.deeper short Handle.held (run method args m))
    {x : Handle} (name : String) {args : List Handle} (line : Nat) {m : Machine} (hm : w.Covers m)
    (hx : w.Admits x) (hargs : w.AdmitsAll (Handle.heldAll args)) :
    Run.Lands w short Handle.held (around limit run x name args line m) := by
  cases hd : m.dispatch limit x name args.length with
  | error cause =>
    rw [around_of_error hd]
    exact .fault (hm.withHeap (hm.heap.releaseAll args)) _
  | ok found =>
    obtain ⟨loc, method⟩ := found
    obtain ⟨-, -, harity, hdepth⟩ := Machine.dispatch_ok hd
    obtain ⟨hloc, hcode⟩ := hm.dispatch hx hd
    rw [around_of_ok hd, enter_apply]
    apply Run.Lands.holding
    have hbody := hrun (hm.depth ▸ hdepth) method args (m.entered loc) harity hcode
      (hm.entered hloc) hargs
    exact Run.Lands.inScope ((hm.retain (.own loc)).retain (.own loc)) hbody

/-- With any amount of fuel requests stay in the realm, unless they are short of it. -/
theorem Guest.within_lands (w : Realm) (limit n : Nat) : (within limit n).Lands w True := by
  induction n generalizing w with
  | zero => exact ⟨fun _ _ _ _ _ hm _ _ => ⟨hm, fun _ => trivial⟩, fun _ _ _ hm _ =>
      ⟨hm, fun _ => trivial⟩⟩
  | succ n ih =>
    constructor
    · intro x name args line m hm hx hargs
      apply lands_around _ name line hm hx hargs
      intro _ method args m harity hcode hm hargs
      exact (bodyScript method args harity).lands (ih w.deeper)
        (made_body (w := w.deeper) harity hcode m) hm hargs
    · intro x line m hm hx
      exact (textScript x line).lands (ih w) (made_text line hm hx) hm w.admitsAll_zero

end Mython
