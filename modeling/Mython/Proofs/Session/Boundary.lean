import Mathlib.Logic.Relation
import Mython.Proofs.Run.Account
import Mython.Session

/-! A session goes on by a statement of a program, or by the next program with a sink of its own; a
program that follows a fault or a return is run in the scope that is there. -/

namespace Mython

open Run

/-- Executes a statement outside all methods and lets go of its value. Says whether the statement
after it follows. -/
def Stmt.pass (g : Guest) (s : Stmt) : Run Bool := do
  match ← s.exec g with
  | .next x =>
    release x
    return true
  | .ret x =>
    release x
    return false

/-- How a statement outside all methods is executed. -/
def Stmt.passScript (s : Stmt) : Script 0 (fun g => s.pass g) fun _ => 0 :=
  s.script.bind fun
    | .next x | .ret x => (Script.step (.release x)).bind fun _ => .still _

/-- A program goes from statement to statement. -/
theorem Program.exec_cons (g : Guest) (s : Stmt) (ss : List Stmt) :
    Program.exec g ⟨s :: ss⟩ =
      s.pass g >>= fun follows => if follows then Program.exec g ⟨ss⟩ else pure () := by
  simp only [Program.exec, Stmt.execAll, Stmt.pass, bind_assoc]
  congr
  funext completion
  cases completion <;> simp

/-- What happens next in a session. A statement that does not end leads nowhere. -/
inductive Machine.Passes (m : Machine) : Machine → Prop
  | program (sink : Sink) : Passes m (m.renew sink)
  | statement (s : Stmt) (limit fuel : Nat)
      (h : (s.pass (.within limit fuel) m).1 ≠ .error .exhausted) :
      Passes m (s.pass (.within limit fuel) m).2

/-- A later state of a session. -/
abbrev Machine.Reaches : Machine → Machine → Prop := Relation.ReflTransGen Machine.Passes

theorem Machine.Passes.grows {m m' : Machine} (h : m.Passes m') : m.heap.Grows m'.heap := by
  cases h with
  | program sink => exact .refl m.heap
  | statement s limit fuel h =>
    exact s.passScript.leads_within Machine.later_heap limit fuel m

/-- The account of a session is settled after every statement, however it ends. -/
theorem Machine.Passes.settled {m m' : Machine} (h : m.Passes m') (hm : m.Settled 0) :
    m'.Settled 0 := by
  cases h with
  | program sink => exact hm
  | statement s limit fuel h =>
    have hdone := s.passScript.accounts (Guest.within_accounted limit fuel) 0 m hm
    rcases hs : s.pass (.within limit fuel) m with ⟨e | follows, m'⟩
    · rw [hs] at hdone h
      cases e with
      | fault fault => exact hdone
      | exhausted => exact absurd rfl h
    · rw [hs] at hdone
      exact hdone

theorem Machine.Reaches.grows {m m' : Machine} (h : m.Reaches m') : m.heap.Grows m'.heap := by
  induction h with
  | refl => exact .refl m.heap
  | tail _ hpass ih => exact ih.trans hpass.grows

theorem Machine.Reaches.settled {m m' : Machine} (h : m.Reaches m') (hm : m.Settled 0) :
    m'.Settled 0 := by
  induction h with
  | refl => exact hm
  | tail _ hpass ih => exact hpass.settled ih

theorem Machine.start_settled (sink : Sink) : (start sink).Settled 0 := Heap.settled_empty

theorem Program.reaches (p : Program) (limit fuel : Nat) (m : Machine)
    (h : (p.exec (.within limit fuel) m).1 ≠ .error .exhausted) :
    m.Reaches (p.exec (.within limit fuel) m).2 := by
  obtain ⟨body⟩ := p
  induction body generalizing m with
  | nil => exact .refl
  | cons s ss ih =>
    rw [exec_cons] at h ⊢
    -- The induction follows the statements: after a fault or a return the rest is left out.
    have hpass := Machine.Passes.statement (m := m) s limit fuel
    rcases hs : s.pass (.within limit fuel) m with ⟨e | next, m'⟩
    · rw [bind_of_error hs] at h ⊢
      rw [hs] at hpass
      exact .single (hpass (by simpa using h))
    · rw [bind_of_ok hs] at h ⊢
      rw [hs] at hpass
      refine .head (hpass (by simp)) ?_
      cases next with
      | true => exact ih m' h
      | false => exact .refl

theorem Machine.reaches_perform (m : Machine) (job : Job)
    (h : (m.perform job).1.failure ≠ some (.halted .exhausted)) : m.Reaches (m.perform job).2 := by
  refine .head (.program (.ofWrites job.writes)) ?_
  rw [perform] at h ⊢
  cases hparse : parse job.source with
  | error e => exact .refl
  | ok p =>
    rw [hparse] at h
    apply p.reaches job.limit plentyOfFuel
    intro hexhausted
    apply h
    simp only [execute, Guest.limited, hexhausted]

/-- A handle is stored under a name of the scope or in a field of an instance that is there. -/
def Machine.Stores (m : Machine) (x : Handle) : Prop := x ∈ m.scope.handles ∨ m.heap.Stores x

theorem Machine.Settled.isSome_iff {m : Machine} (hm : m.Settled 0) (loc : Loc) :
    (m.heap.get? loc).isSome = true ↔ m.Stores (.own loc) := by
  have hiff := Heap.Settled.isSome_iff hm loc
  rw [add_zero, Handle.mem_heldAll] at hiff
  simpa [Stores] using hiff

theorem Machine.Settled.known {m : Machine} (hm : m.Settled 0) {loc : Loc}
    (hx : m.Stores (.share loc)) : m.heap.Known (.share loc) := by
  rcases hx with hx | hx
  · apply Heap.Settled.known hm
    rw [add_zero, Handle.mem_heldAll]
    exact ⟨hx, by simp⟩
  · exact Heap.Settled.stored hm _ hx

/-- Between the statements of a session nothing leaks and nothing dangles. Something is there if and
only if a handle that owns it is stored, and each such handle leads to it. A stored handle that
shares leads to its instance as long as that is owned, and to nothing ever after. All of this holds
after each program, and after each beginning of one, however it ends. -/
theorem Machine.ownership_exact {sink : Sink} {m : Machine} (h : (start sink).Reaches m) :
    (∀ loc, (m.heap.get? loc).isSome = true ↔ m.Stores (.own loc)) ∧
    (∀ loc, m.Stores (.own loc) → (m.heap.object? (.own loc)).isSome = true) ∧
    (∀ loc, m.Stores (.share loc) → loc < m.heap.size ∧ ∀ m', m.Reaches m' →
      ((m'.heap.object? (.share loc)).isSome = true ↔ m'.Stores (.own loc)) ∧
      ∀ object', m'.heap.object? (.share loc) = some object' → object'.kind = .inst ∧
        ∃ object, m.heap.get? loc = some object ∧ object.kind = .inst) ∧
    (∀ (p : Program) (limit fuel : Nat), (p.exec (.within limit fuel) m).1 ≠ .error .exhausted →
      m.Reaches (p.exec (.within limit fuel) m).2) ∧
    ∀ job, (m.perform job).1.failure ≠ some (.halted .exhausted) → m.Reaches (m.perform job).2 := by
  have hm : m.Settled 0 := h.settled (start_settled sink)
  refine ⟨hm.isSome_iff, ?_, ?_, ?_, ?_⟩
  · intro loc hstored
    exact (hm.isSome_iff loc).2 hstored
  · intro loc hstored
    obtain ⟨hloc, hkind⟩ := hm.known hstored
    refine ⟨hloc, ?_⟩
    intro m' hlater
    refine ⟨(hlater.settled hm).isSome_iff loc, ?_⟩
    intro object' hget'
    obtain ⟨object, hget, hsame⟩ := hlater.grows.kept loc object' hloc hget'
    have hinst := hkind object hget
    exact ⟨hsame ▸ hinst, object, hget, hinst⟩
  · intro p limit fuel hends
    exact p.reaches limit fuel m hends
  · intro job hends
    exact m.reaches_perform job hends

/-- A program that drops an instance and keeps a handle that shares it. -/
def Job.droppedInstance : Job where
  source := "class Box:\n  def f():\n    return 0\n\nx = Box()\ny = x.self\nx = None\n"
  limit := 10
  writes := none

/-- After the program the instance is gone, and the handle that shares it leads nowhere for the rest
of the session. -/
theorem Machine.ownership_exact_droppedInstance :
    ∃ m, (start .endless).Reaches m ∧ m.Stores (.share 1) ∧ ¬ m.Stores (.own 1) ∧
      ∀ m', m.Reaches m' → m'.heap.object? (.share 1) = none := by
  have hends : ((start .endless).perform .droppedInstance).1.failure.isNone = true := by
    decide +kernel
  have hshared : Handle.share 1 ∈ ((start .endless).perform .droppedInstance).2.scope.handles := by
    decide +kernel
  have hgone : (((start .endless).perform .droppedInstance).2.heap.get? 1).isSome = false := by
    decide +kernel
  have hreached := reaches_perform (start .endless) .droppedInstance (by
    intro hfailure
    rw [hfailure] at hends
    cases hends)
  obtain ⟨halive, -, hshare, -⟩ := ownership_exact hreached
  refine ⟨_, hreached, Or.inl hshared, ?_, ?_⟩
  · intro howned
    rw [← halive, hgone] at howned
    cases howned
  · intro m' hlater
    rw [Option.eq_none_iff_forall_ne_some]
    intro object' hget'
    obtain ⟨-, object, hget, -⟩ := ((hshare 1 (Or.inl hshared)).2 m' hlater).2 object' hget'
    rw [hget] at hgone
    cases hgone

end Mython
