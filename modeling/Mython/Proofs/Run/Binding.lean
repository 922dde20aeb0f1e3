import Mathlib.Logic.Relation
import Mython.Proofs.Run.Acts

namespace Mython

open Run

namespace Bindings

/-- Bindings in which some of several names have been given values, one after the other. -/
abbrev Rebound (names : String → Prop) : Bindings → Bindings → Prop :=
  Relation.ReflTransGen fun b b' => ∃ name x, names name ∧ b' = b.set name x

namespace Rebound

variable {names : String → Prop} {b b' : Bindings}

theorem get?_eq (h : Rebound names b b') {name : String} (hname : ¬ names name) :
    b'.get? name = b.get? name := by
  induction h with
  | refl => rfl
  | tail _ hset ih =>
    obtain ⟨other, x, hother, rfl⟩ := hset
    have hne : name ≠ other := fun heq => hname (heq ▸ hother)
    rw [get?_set_of_ne _ hne, ih]

theorem isSome (h : Rebound names b b') {name : String} (hbound : (b.get? name).isSome = true) :
    (b'.get? name).isSome = true := by
  induction h with
  | refl => exact hbound
  | @tail c _ _ hset ih =>
    obtain ⟨other, x, -, rfl⟩ := hset
    by_cases heq : name = other
    · rw [heq, get?_set_self]
      rfl
    · rwa [get?_set_of_ne _ heq]

theorem eq_of_none (h : Rebound names b b') (hnone : ∀ name, ¬ names name) : b' = b := by
  induction h with
  | refl => rfl
  | tail _ hset _ =>
    obtain ⟨name, _, hname, -⟩ := hset
    exact absurd hname (hnone name)

end Rebound

end Bindings

/-- An act that binds no name but certain ones. -/
def Act.BindsOnly (names : String → Prop) : Act → Prop
  | reports _ => True
  | binds name => names name

/-- Any line may be reported. -/
theorem Act.reported_all (names : String → Prop) :
    Code.Reported (fun _ => True) (BindsOnly names) where
  closed _ _ := trivial
  line _ _ := trivial

/-- Requests to a guest leave the scope as it is. -/
structure Guest.KeepsScope (g : Guest) : Prop where
  call : ∀ x name args line m, (g.call x name args line m).2.scope = m.scope
  render : ∀ x line m, (g.render x line m).2.scope = m.scope

section Binding

variable {names : String → Prop} {p : Multiset Handle}

theorem Primitive.rebinds {f : Run α} {q : α → Multiset Handle} (h : Primitive p f q)
    (hb : h.Every (Act.BindsOnly names)) (m : Machine) :
    m.scope.Rebound names (f m).2.scope := by
  cases h with
  | assign name x => exact .single ⟨name, x, hb, rfl⟩
  | @compute line look =>
    rw [Run.compute, ask_bind]
    cases look m.heap <;> exact .refl
  | path root fields line =>
    rw [Run.path]
    split
    · exact .refl
    · split <;> exact .refl
  | fetch x owner name line =>
    rw [Run.fetch, ask_bind]
    cases m.heap.field x owner name <;> exact .refl
  | write line text =>
    rw [Run.write]
    split <;> exact .refl
  | _ => exact .refl

/-- A field is assigned in the heap, so the scope is the one behind the value. -/
theorem Run.scope_bestow (loc : Loc) (field : String) (f : Run Handle) (m : Machine) :
    (bestow loc field f m).2.scope = (f m).2.scope := by
  rcases hf : f m with ⟨e | y, m'⟩
  · have hstop : bestow loc field f m = (.error e, m') := bind_of_error hf
    rw [hstop]
  · have hdone : bestow loc field f m = _ := bind_of_ok hf
    rw [hdone]
    rfl

/-- A run binds the names that steps of its script bind, and no others. -/
theorem Script.rebinds {g : Guest} (hg : g.KeepsScope) {f : Guest → Run α}
    {q : α → Multiset Handle} (h : Script p f q) (hb : h.Every (Act.BindsOnly names))
    (m : Machine) : m.scope.Rebound names (f g m).2.scope := by
  -- By induction on the script. Requests leave the scope as it is, so only the steps of the script
  -- itself count, also where a part halts and the rest is not run.
  induction h generalizing m with
  | step h => exact h.rebinds hb m
  | frame _ h _ => exact h.rebinds hb m
  | @bind _ _ _ f _ _ _ _ _ ih ihk =>
    have hfirst := ih hb.1 m
    beta_reduce
    rcases hf : f g m with ⟨e | a, m'⟩
    · rw [hf] at hfirst
      rw [bind_of_error hf]
      exact hfirst
    · rw [hf] at hfirst
      rw [bind_of_ok hf]
      exact hfirst.trans (ihk a (hb.2 a) m')
  | holding x _ ih => exact ih hb m
  | @keeping _ _ f _ x _ ih =>
    have hinner := ih hb m
    beta_reduce
    rcases hf : f g m with ⟨e | a, m'⟩
    · rw [hf] at hinner
      rw [keeping_of_error hf]
      exact hinner
    · rw [hf] at hinner
      rw [keeping_of_ok hf]
      exact hinner
  | @seize _ _ look _ _ _ _ _ _ ihb iho =>
    beta_reduce
    cases hl : look m.heap with
    | ok loc =>
      rw [seize_of_ok hl, retain_bind]
      exact ihb loc (hb.1 loc) { m with heap := m.heap.retain (.own loc) }
    | error found =>
      rw [seize_of_error hl]
      exact iho found (hb.2 found) m
  | @bestow f x describe field line _ ih =>
    beta_reduce
    cases hl : instanceAt x m.heap with
    | error found =>
      rw [seize_of_error hl]
      exact .refl
    | ok loc =>
      have hvalue := ih hb.2 { m with heap := m.heap.retain (.own loc) }
      rw [← scope_bestow loc field] at hvalue
      rw [seize_of_ok hl, retain_bind]
      exact hvalue
  | call x name args line =>
    rw [hg.call]
  | render x line =>
    rw [hg.render]
  | conv _ _ hf _ ih =>
    rw [← hf]
    exact ih hb m

end Binding

namespace Guest

/-- Behind a call the scope is the one in front of it. -/
theorem scope_around (limit : Nat) (run : Method → List Handle → Run Handle) (x : Handle)
    (name : String) (args : List Handle) (line : Nat) (m : Machine) :
    (around limit run x name args line m).2.scope = m.scope := by
  cases hd : m.dispatch limit x name args.length with
  | error cause => rw [around_of_error hd]
  | ok found =>
    rw [around_of_ok hd, enter_apply]
    rfl

/-- With every limit and any amount of fuel requests leave the scope as it is. -/
theorem within_keepsScope (limit n : Nat) : (within limit n).KeepsScope := by
  induction n with
  | zero => exact ⟨fun _ _ _ _ _ => rfl, fun _ _ _ => rfl⟩
  | succ n ih =>
    constructor
    · intro x name args line m
      exact scope_around limit (within limit n).body x name args line m
    · intro x line m
      have hbound : m.scope.Rebound (fun _ => False) ((within limit n).text x line m).2.scope :=
        (textScript x line).rebinds ih (every_text x trivial) m
      exact hbound.eq_of_none fun _ h => h

end Guest

/-- Evaluating an expression leaves the scope as it is, also when it halts. -/
theorem Expr.scope_eval (e : Expr) (limit fuel : Nat) (m : Machine) :
    (e.eval (.within limit fuel) m).2.scope = m.scope := by
  have hevery := e.every (Act.reported_all fun _ => False) trivial
  exact (e.script.rebinds (Guest.within_keepsScope limit fuel) hevery m).eq_of_none fun _ h => h

/-- Whether a statement has blocks that it chooses from. -/
def Stmt.isConditional : Stmt → Bool
  | ifThen _ _ _ | ifElse _ _ _ _ => true
  | assign _ _ _ | assignField _ _ _ _ | print _ _ | ret _ _ | define _ _ | eval _ => false

/-- A statement binds only names that it assigns. -/
theorem Stmt.rebinds (s : Stmt) (limit fuel : Nat) (m : Machine) :
    m.scope.Rebound (· ∈ s.assigned) (s.exec (.within limit fuel) m).2.scope := by
  have hevery := s.every (Act.reported_all (· ∈ s.assigned)) trivial fun name hname => hname
  exact s.script.rebinds (Guest.within_keepsScope limit fuel) hevery m

/-- An assignment of a name is the last thing that its statement does, so a simple statement that
does not run to its end leaves the scope as it is. -/
theorem Stmt.scope_of_stopped (s : Stmt) (hs : s.isConditional = false) {limit fuel : Nat}
    {m : Machine} (hstop : ∀ x, (s.exec (.within limit fuel) m).1 ≠ .ok (.next x)) :
    (s.exec (.within limit fuel) m).2.scope = m.scope := by
  cases s with
  | assign name value pos =>
    rcases hv : value.eval (.within limit fuel) m with ⟨e | x, m'⟩
    · have hscope := value.scope_eval limit fuel m
      rw [hv] at hscope
      rw [exec, bind_of_error hv]
      exact hscope
    · refine absurd ?_ (hstop x)
      rw [exec, bind_of_ok hv]
      rfl
  | define cls pos => exact absurd rfl (hstop (.own m.heap.size))
  | ifThen condition body pos => cases hs
  | ifElse condition body other pos => cases hs
  | _ => exact (rebinds _ limit fuel m).eq_of_none fun name hname => List.not_mem_nil hname

/-- A statement touches only names that it assigns itself, also when it halts: every name that is
bound stays bound, and a name that the statement does not assign keeps its value, or stays
unbound. A statement that is no conditional leaves the whole scope as it is if it halts or returns.
An expression leaves it as it is in any case, whatever methods it calls. -/
theorem Stmt.exec_touches_assigned (s : Stmt) (limit fuel : Nat) (m : Machine) :
    let r := s.exec (.within limit fuel) m
    (∀ name, (m.scope.get? name).isSome = true → (r.2.scope.get? name).isSome = true) ∧
    (∀ name, name ∉ s.assigned → r.2.scope.get? name = m.scope.get? name) ∧
    (s.isConditional = false → (∀ x, r.1 ≠ .ok (.next x)) → r.2.scope = m.scope) ∧
    ∀ e : Expr, (e.eval (.within limit fuel) m).2.scope = m.scope := by
  have hbound := s.rebinds limit fuel m
  refine ⟨?_, ?_, ?_, ?_⟩
  · intro name hname
    exact hbound.isSome hname
  · intro name hname
    exact hbound.get?_eq hname
  · intro hs hstop
    exact s.scope_of_stopped hs hstop
  · intro e
    exact e.scope_eval limit fuel m

/-- A conditional whose block assigns a name and then stops at one that is not there. -/
def Stmt.halfDone : Stmt :=
  .ifThen (.truth true .start)
    [.assign "x" (.number 1 .start) .start, .eval (.path "missing" [] .start)] .start

/-- It has bound the one name that it assigns when it halts, and no other. An assignment that halts
itself binds nothing. -/
theorem Stmt.exec_touches_assigned_halfDone :
    let m : Machine := { Machine.start .endless with scope := ⟨[("y", .absent)]⟩ }
    let r := halfDone.exec (.within 9 9) m
    let lost := (assign "y" (.path "missing" [] .start) .start).exec (.within 9 9) m
    r.1 = .error (.fault ⟨1, .undefined "missing"⟩) ∧ (r.2.scope.get? "x").isSome = true ∧
      (r.2.scope.get? "y").isSome = true ∧ r.2.scope.get? "missing" = none ∧
      lost.2.scope = m.scope := by
  intro m r lost
  obtain ⟨hkept, hsame, -⟩ := exec_touches_assigned halfDone 9 9 m
  obtain ⟨-, -, hstopped, -⟩ := exec_touches_assigned
    (assign "y" (.path "missing" [] .start) .start) 9 9 m
  refine ⟨by decide +kernel, by decide +kernel, hkept "y" rfl, hsame "missing" (by decide), ?_⟩
  apply hstopped rfl
  intro x
  have hlost : lost.1 = .error (.fault ⟨1, .undefined "missing"⟩) := by decide +kernel
  rw [hlost]
  rintro ⟨⟩

end Mython
