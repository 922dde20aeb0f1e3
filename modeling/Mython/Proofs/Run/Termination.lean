import Mython.Proofs.Run.Realm

namespace Mython

open Run

/-- Whether a class gives the text of its instances, by a method of its own or of the nearest class
it extends that has one of that name. -/
def Class.givesText (c : Class) : Bool := (c.accepting? textName 0).isSome

/-- No class in the code gives the text of its instances. -/
def Code.Quiet (code : Code) : Prop := ∀ c, code.Contains (.cls c) → c.givesText = false

/-- No class in the program gives the text of its instances. -/
def Program.Quiet (p : Program) : Prop := ∀ c, p.Contains (.cls c) → c.givesText = false

namespace Heap

/-- The places to which handles lead, also through fields. -/
inductive Reached (h : Heap) (roots : List Handle) : Loc → Prop
  | root {x : Handle} {loc : Loc} (hx : x ∈ roots) (hloc : x.loc? = some loc) : Reached h roots loc
  | field {loc loc' : Loc} {c : Class} {fields : Bindings} {x : Handle} (hr : Reached h roots loc)
      (hget : h.get? loc = some (.inst c fields)) (hx : x ∈ fields.handles)
      (hloc : x.loc? = some loc') : Reached h roots loc'

/-- No class that can be reached from handles gives the text of its instances, be it as a value, as
the class of a value or in the code of either. -/
def Quiet (h : Heap) (roots : List Handle) : Prop := ∀ loc object c, h.Reached roots loc →
  h.get? loc = some object → object.definition? = some c → (Code.cls c).Quiet

end Heap

/-- Something ends with an amount of fuel, and more fuel changes nothing. -/
def Machine.Finishes (m : Machine) (limit fuel : Nat) (f : Guest → Run α) : Prop :=
  (f (.within limit fuel) m).1 ≠ .error .exhausted ∧
    ∀ more, fuel ≤ more → f (.within limit more) m = f (.within limit fuel) m

namespace Realm

variable {w : Realm} {m : Machine}

/-- What handles lead to in a heap, what will be new in it, and code without classes that give the
text of their instances. -/
def quiet (h : Heap) (roots : List Handle) (depth : Nat) : Realm where
  code := Code.Quiet
  closed ha hpart c hc := ha c (.head hpart hc)
  places loc := h.Reached roots loc ∨ h.size ≤ loc
  base := h.size
  new _ hloc := Or.inr hloc
  depth := depth

theorem quiet_covers {roots : List Handle} (hq : m.heap.Quiet roots)
    (hscope : ∀ x ∈ m.scope.handles, x ∈ roots) : (quiet m.heap roots m.depth).Covers m := by
  refine ⟨⟨Nat.le_refl _, ?_⟩, ?_, rfl⟩
  · rintro loc object (hloc | hloc) hget
    · cases object with
      | inst c fields =>
        refine ⟨hq loc _ c hloc hget rfl, fun x hx place hplace => ?_⟩
        exact Or.inl (.field hloc hget hx hplace)
      | cls c => exact hq loc _ c hloc hget rfl
      | _ => trivial
    · exact absurd (Heap.lt_size_of_get? hget) (Nat.not_lt.2 hloc)
  · intro x hx loc hloc
    exact Or.inl (.root (hscope x hx) hloc)

/-- In a realm without such classes a value is put into text at once. -/
theorem Covers.text (hm : w.Covers m) (hquiet : ∀ c, w.code (.cls c) → c.givesText = false)
    (g : Guest) {x : Handle} (hx : w.Admits x) (line : Nat) :
    ∃ text, g.text x line m = (.ok text, m) := by
  rw [Guest.text_eq_seize]
  have hobject : ∀ object, m.heap.object? x = some object → w.Harbours object := by
    intro object hobject
    obtain ⟨loc, hloc, hget⟩ := Option.bind_eq_some_iff.1 hobject
    exact hm.heap.object loc object (hx loc hloc) hget
  cases hs : Guest.speaker x m.heap with
  | ok loc =>
    rw [Guest.speaker] at hs
    split at hs
    · next place c fields hloc hfound =>
      have hgives : (c.accepting? textName 0).isSome = false := hquiet c (hobject _ hfound).1
      rw [hgives] at hs
      cases hs
    · cases hs
  | error found =>
    rw [seize_of_error hs]
    obtain rfl := Guest.speaker_error hs
    cases hloc : x.loc? with
    | none => cases m.heap.object? x <;> exact ⟨_, rfl⟩
    | some loc =>
      cases hfound : m.heap.object? x with
      | none => exact ⟨_, rfl⟩
      | some object =>
        cases object with
        | cls c =>
          have hgives : (c.accepting? textName 0).isSome = false := hquiet c (hobject _ hfound)
          simp only [Guest.otherText, hgives]
          exact ⟨_, rfl⟩
        | _ => exact ⟨_, rfl⟩

end Realm

/-- Where no class gives the text of its instances, fuel for the calls that are left up to the limit
and for one request more is enough for every request. -/
theorem Guest.within_finishes_requests {w : Realm} {limit n : Nat}
    (hquiet : ∀ c, w.code (.cls c) → c.givesText = false) (hfuel : limit - w.depth < n) :
    (within limit n).Lands w False := by
  induction n generalizing w with
  | zero => exact absurd hfuel (Nat.not_lt_zero _)
  | succ n ih =>
    constructor
    · intro x name args line m hm hx hargs
      apply lands_around _ name line hm hx hargs
      -- The call is one below the limit, so one unit less is enough one call deeper.
      intro hdepth method args m harity hcode hm hargs
      have hless : limit - w.deeper.depth < n := by
        show limit - (w.depth + 1) < n
        omega
      have hbody := made_body (w := w.deeper) (g := within limit n) harity hcode m
      exact (bodyScript method args harity).lands (ih (w := w.deeper) hquiet hless) hbody hm hargs
    · intro x line m hm hx
      obtain ⟨text, htext⟩ := hm.text hquiet (within limit n) hx line
      have hrender : (within limit (n + 1)).render x line m = (.ok text, m) := htext
      rw [hrender]
      exact ⟨hm, w.admitsAll_zero⟩

/-- So it is for all that is made of such code. -/
theorem Script.finishes {w : Realm} {limit : Nat} {p : Multiset Handle} {f : Guest → Run α}
    {q : α → Multiset Handle} (h : Script p f q) {m : Machine}
    (hquiet : ∀ c, w.code (.cls c) → c.givesText = false) (hmade : ∀ g, h.Made w g m)
    (hm : w.Covers m) (hp : w.AdmitsAll p) : m.Finishes limit (limit - w.depth + 1) f := by
  have hrequests : (Guest.within limit (limit - w.depth + 1)).Lands w False :=
    Guest.within_finishes_requests hquiet (Nat.lt_succ_self _)
  have hlands := h.lands hrequests (hmade _) hm hp
  have hends : (f (.within limit (limit - w.depth + 1)) m).1 ≠ .error .exhausted := by
    intro hshort
    have hrun : f (.within limit (limit - w.depth + 1)) m = (.error .exhausted, _) :=
      Prod.ext hshort rfl
    rw [hrun] at hlands
    exact hlands.2 rfl
  refine ⟨hends, fun more hle => ?_⟩
  exact h.run_of_le hle hends rfl

/-- What a call gives does not depend on the scope around it. -/
theorem Guest.call_scope (limit n : Nat) (x : Handle) (name : String) (args : List Handle)
    (line : Nat) (m : Machine) (scope : Bindings) :
    ((within limit n).call x name args line { m with scope }).1 =
      ((within limit n).call x name args line m).1 := by
  cases n with
  | zero => rfl
  | succ n =>
    show ((within limit n).invoke limit x name args line { m with scope }).1 =
      ((within limit n).invoke limit x name args line m).1
    have hsame : ({ m with scope } : Machine).dispatch limit x name args.length =
        m.dispatch limit x name args.length := rfl
    rw [invoke_eq_around]
    cases hd : m.dispatch limit x name args.length with
    | error cause => rw [around_of_error hd, around_of_error (hsame.trans hd)]
    | ok found =>
      obtain ⟨loc, method⟩ := found
      rw [around_of_ok hd, around_of_ok (hsame.trans hd), enter_apply, enter_apply]
      rfl

/-- All that is made of quiet code ends in a scope from which only quiet classes are reached. -/
theorem Machine.Finishes.of_made {m : Machine} {limit : Nat} {f : Guest → Run α}
    {q : α → Multiset Handle} (h : Script 0 f q) (hq : m.heap.Quiet m.scope.handles)
    (hmade : ∀ g, h.Made (.quiet m.heap m.scope.handles m.depth) g m) :
    m.Finishes limit (limit - m.depth + 1) f :=
  h.finishes (w := .quiet m.heap m.scope.handles m.depth) (fun c hc => hc c .refl) hmade
    (Realm.quiet_covers hq fun _ hx => hx) (Realm.admitsAll_zero _)

/-- A call ends if only quiet classes are reached from its receiver and its arguments. -/
theorem Machine.Finishes.call {m : Machine} {x : Handle} {args : List Handle}
    (hq : m.heap.Quiet (x :: args)) (limit : Nat) (name : String) (line : Nat) :
    m.Finishes limit (limit - m.depth + 1) fun g => g.call x name args line := by
  have hadmits : ∀ y ∈ x :: args, (Realm.quiet m.heap (x :: args) m.depth).Admits y :=
    fun y hy loc hloc => Or.inl (.root hy hloc)
  have hempty : ({ m with scope := .empty } : Machine).Finishes limit (limit - m.depth + 1)
      fun g => g.call x name args line := by
    apply (Script.call x name args line).finishes (w := .quiet m.heap (x :: args) m.depth)
    · exact fun c hc => hc c .refl
    · exact fun g => hadmits x List.mem_cons_self
    · exact Realm.quiet_covers (m := { m with scope := .empty }) hq fun y hy => by cases hy
    · exact fun y hy => hadmits y (List.mem_cons_of_mem x (Handle.mem_heldAll.1 hy).1)
  have hends : ((Guest.within limit (limit - m.depth + 1)).call x name args line m).1 ≠
      .error .exhausted := by
    intro hshort
    exact hempty.1 ((Guest.call_scope limit _ x name args line m .empty).trans hshort)
  refine ⟨hends, fun more hle => ?_⟩
  exact (Script.call x name args line).run_of_le hle hends rfl

/-- The limit on the depth of calls makes everything end, in every state and with every limit, as
long as no class of the code or in reach gives the text of its instances. Fuel for the calls that
are left up to the limit and for one request more is enough, and more fuel changes nothing: a
program, a block, a statement and an expression end in every scope, a call on every receiver and
with all arguments. -/
theorem Machine.finishes_of_quiet (m : Machine) (limit : Nat) :
    (m.heap.Quiet m.scope.handles →
      (∀ p : Program, p.Quiet →
        m.Finishes limit (limit - m.depth + 1) fun g => p.exec g) ∧
      (∀ ss : List Stmt, (∀ s ∈ ss, (Code.stmt s).Quiet) →
        m.Finishes limit (limit - m.depth + 1) fun g => Stmt.execAll g ss) ∧
      (∀ s : Stmt, (Code.stmt s).Quiet →
        m.Finishes limit (limit - m.depth + 1) fun g => s.exec g) ∧
      ∀ e : Expr, (Code.expr e).Quiet →
        m.Finishes limit (limit - m.depth + 1) fun g => e.eval g) ∧
    ∀ (x : Handle) (name : String) (args : List Handle) (line : Nat), m.heap.Quiet (x :: args) →
      m.Finishes limit (limit - m.depth + 1) fun g => g.call x name args line := by
  refine ⟨fun hq => ⟨?_, ?_, ?_, ?_⟩, ?_⟩
  · intro p hp
    apply Finishes.of_made p.script hq
    exact fun g => Program.made (fun s hs c hc => hp c ⟨s, hs, hc⟩) m
  · intro ss hss
    apply Finishes.of_made (Stmt.scriptAll ss) hq
    exact fun g => Stmt.madeAll ss hss m
  · intro s hs
    apply Finishes.of_made s.script hq
    exact fun g => s.made hs m
  · intro e he
    apply Finishes.of_made e.script hq
    exact fun g => e.made he m
  · intro x name args line hq
    exact Finishes.call hq limit name line

/-- A program that calls one method from itself again and again. -/
def Program.runaway : Program :=
  let again : Expr := .call (.path "self" [] .start) "go"
    [.arith .add (.path "n" [] .start) (.number 1 .start) .start] .start
  let go : Method := ⟨"go", ["n"], [.ret (some again) .start]⟩
  ⟨[.eval (.call (.construct ⟨"Forever", [go], none⟩ [] .start) "go" [.number 0 .start] .start)]⟩

/-- The program ends by its limit, with fuel for one request more than the limit allows calls. -/
theorem Machine.finishes_of_quiet_runaway :
    Program.runaway.Quiet ∧
      (start .endless).Finishes 5 6 (fun g => Program.runaway.exec g) ∧
      (Program.runaway.exec (.within 5 6) (start .endless)).1 =
        .error (.fault ⟨1, .depth 5⟩) := by
  have hquiet : Program.runaway.Quiet := by
    have hevery : Program.runaway.body.all fun s => Code.every
        (fun | .cls c => !c.givesText | _ => true) 10 (.stmt s) := by decide +kernel
    rintro c ⟨s, hs, hc⟩
    simpa using Code.of_every (List.all_eq_true.1 hevery s hs) hc
  have hempty : (start .endless).heap.Quiet (start .endless).scope.handles := by
    intro loc object c _ hget
    cases hget
  exact ⟨hquiet, ((finishes_of_quiet (start .endless) 5).1 hempty).1 _ hquiet, by decide +kernel⟩

end Mython
