import Mython.Program.Statement

namespace Mython

/-- The place of a statement. An expression that stands alone is where its first part is. -/
def Stmt.pos : Stmt → Position
  | assign _ _ pos | assignField _ _ _ pos | print _ pos | ret _ pos | ifThen _ _ pos
  | ifElse _ _ _ pos | define _ pos => pos
  | eval e => e.pos

/-- Whether a statement is written on one line, with no block. -/
def Stmt.isSimple : Stmt → Bool
  | assign _ _ _ | assignField _ _ _ _ | print _ _ | ret _ _ | eval _ => true
  | ifThen _ _ _ | ifElse _ _ _ _ | define _ _ => false

/-- What a logical line starts. -/
inductive Heading where
  | statement (s : Stmt)
  /-- The second block of a conditional. -/
  | otherwise (owner : Stmt)
  | method (name : String)

/-- A logical line of a program, with the number of blocks around it. -/
structure LogicalLine where
  depth : Nat
  heading : Heading

mutual

/-- The lines of a statement, inside a number of blocks. -/
def Stmt.outline (d : Nat) : Stmt → List LogicalLine
  | .ifThen condition body pos =>
    ⟨d, .statement (.ifThen condition body pos)⟩ :: Stmt.outlineAll (d + 1) body
  | .ifElse condition body other pos =>
    ⟨d, .statement (.ifElse condition body other pos)⟩ :: (Stmt.outlineAll (d + 1) body ++
      ⟨d, .otherwise (.ifElse condition body other pos)⟩ :: Stmt.outlineAll (d + 1) other)
  | .define ⟨name, methods, parent⟩ pos =>
    ⟨d, .statement (.define ⟨name, methods, parent⟩ pos)⟩ :: Method.outlineAll (d + 1) methods
  | .assign name value pos => [⟨d, .statement (.assign name value pos)⟩]
  | .assignField object field value pos =>
    [⟨d, .statement (.assignField object field value pos)⟩]
  | .print args pos => [⟨d, .statement (.print args pos)⟩]
  | .ret value pos => [⟨d, .statement (.ret value pos)⟩]
  | .eval e => [⟨d, .statement (.eval e)⟩]

/-- The lines of statements in a row. -/
def Stmt.outlineAll (d : Nat) : List Stmt → List LogicalLine
  | [] => []
  | s :: ss => s.outline d ++ Stmt.outlineAll d ss

/-- The lines of methods in a row. -/
def Method.outlineAll (d : Nat) : List Method → List LogicalLine
  | [] => []
  | ⟨name, _, body⟩ :: ms =>
    ⟨d, .method name⟩ :: (Stmt.outlineAll (d + 1) body ++ Method.outlineAll d ms)

end

/-- The lines of a method, inside a number of blocks. -/
def Method.outline (d : Nat) (m : Method) : List LogicalLine :=
  ⟨d, .method m.name⟩ :: Stmt.outlineAll (d + 1) m.body

/-- The lines of a program. -/
def Program.outline (p : Program) : List LogicalLine := Stmt.outlineAll 0 p.body

theorem Stmt.outline_simple {s : Stmt} (hs : s.isSimple = true) (d : Nat) :
    s.outline d = [⟨d, .statement s⟩] := by
  cases s with
  | ifThen | ifElse | define => cases hs
  | _ => rw [outline]

theorem Stmt.outlineAll_eq_flatMap (d : Nat) (ss : List Stmt) :
    outlineAll d ss = ss.flatMap (outline d) := by
  induction ss with
  | nil => rfl
  | cons s ss ih => rw [outlineAll, ih, List.flatMap_cons]

theorem Method.outlineAll_eq_flatMap (d : Nat) (ms : List Method) :
    outlineAll d ms = ms.flatMap (outline d) := by
  induction ms with
  | nil => rfl
  | cons m ms ih =>
    obtain ⟨name, params, body⟩ := m
    rw [outlineAll, ih, List.flatMap_cons, outline, List.cons_append]

mutual

/-- No line of a statement is less deep than the statement. -/
theorem Stmt.le_depth (d : Nat) : ∀ s : Stmt, ∀ e ∈ s.outline d, d ≤ e.depth
  | .ifThen _ body _ => by
    rw [Stmt.outline, List.forall_mem_cons]
    exact ⟨Nat.le_refl d, fun e he => Nat.le_of_succ_le (Stmt.le_depthAll (d + 1) body e he)⟩
  | .ifElse _ body other _ => by
    rw [Stmt.outline, List.forall_mem_cons, List.forall_mem_append, List.forall_mem_cons]
    exact ⟨Nat.le_refl d, fun e he => Nat.le_of_succ_le (Stmt.le_depthAll (d + 1) body e he),
      Nat.le_refl d, fun e he => Nat.le_of_succ_le (Stmt.le_depthAll (d + 1) other e he)⟩
  | .define ⟨_, methods, _⟩ _ => by
    rw [Stmt.outline, List.forall_mem_cons]
    exact ⟨Nat.le_refl d, fun e he => Nat.le_of_succ_le (Method.le_depthAll (d + 1) methods e he)⟩
  | .assign _ _ _ | .assignField _ _ _ _ | .print _ _ | .ret _ _ | .eval _ => by simp [Stmt.outline]

theorem Stmt.le_depthAll (d : Nat) : ∀ ss : List Stmt, ∀ e ∈ Stmt.outlineAll d ss, d ≤ e.depth
  | [] => by simp [Stmt.outlineAll]
  | s :: ss => by
    rw [Stmt.outlineAll, List.forall_mem_append]
    exact ⟨Stmt.le_depth d s, Stmt.le_depthAll d ss⟩

theorem Method.le_depthAll (d : Nat) :
    ∀ ms : List Method, ∀ e ∈ Method.outlineAll d ms, d ≤ e.depth
  | [] => by simp [Method.outlineAll]
  | ⟨_, _, body⟩ :: ms => by
    rw [Method.outlineAll, List.forall_mem_cons, List.forall_mem_append]
    exact ⟨Nat.le_refl d, fun e he => Nat.le_of_succ_le (Stmt.le_depthAll (d + 1) body e he),
      Method.le_depthAll d ms⟩

end

/-- Lines among which every second block belongs to the last line in front of it that is not deeper
than it, and that line starts the conditional. -/
def Owned (es : List LogicalLine) : Prop :=
  ∀ front d owner rest, es = front ++ ⟨d, .otherwise owner⟩ :: rest →
    ∃ outer inner, front = outer ++ ⟨d, .statement owner⟩ :: inner ∧ ∀ e ∈ inner, d < e.depth

namespace Owned

theorem nil : Owned [] := by
  intro front d owner rest h
  simp at h

theorem append {es fs : List LogicalLine} (h : Owned es) (h' : Owned fs) : Owned (es ++ fs) := by
  intro front d owner rest heq
  rcases List.append_eq_append_iff.1 heq with ⟨front', rfl, hfs⟩ | ⟨rest', hes, hrest⟩
  · obtain ⟨outer, inner, rfl, hdeep⟩ := h' front' d owner rest hfs
    exact ⟨es ++ outer, inner, (List.append_assoc ..).symm, hdeep⟩
  · cases rest' with
    | nil =>
      obtain ⟨outer, inner, hnone, -⟩ := h' [] d owner rest hrest.symm
      simp at hnone
    | cons e rest' =>
      obtain ⟨rfl, -⟩ := List.cons.inj hrest
      exact h front d owner rest' hes

theorem cons {e : LogicalLine} {es : List LogicalLine} (he : ∀ owner, e.heading ≠ .otherwise owner)
    (h : Owned es) : Owned (e :: es) := by
  intro front d owner rest heq
  rcases List.cons_eq_append_iff.1 heq with ⟨rfl, hhead⟩ | ⟨front', rfl, hes⟩
  · obtain ⟨rfl, -⟩ := List.cons.inj hhead
    exact absurd rfl (he owner)
  · obtain ⟨outer, inner, rfl, hdeep⟩ := h front' d owner rest hes
    exact ⟨e :: outer, inner, rfl, hdeep⟩

/-- A conditional owns its second block: all lines of the first one are deeper. -/
theorem conditional {d : Nat} {s : Stmt} {es fs : List LogicalLine} (h : Owned es)
    (hdeep : ∀ e ∈ es, d < e.depth) (h' : Owned fs) :
    Owned (⟨d, .statement s⟩ :: (es ++ ⟨d, .otherwise s⟩ :: fs)) := by
  have hbody : Owned (⟨d, .statement s⟩ :: es) := h.cons fun owner => by simp
  intro front k owner rest heq
  rw [← List.cons_append] at heq
  rcases List.append_eq_append_iff.1 heq with ⟨front', rfl, htail⟩ | ⟨rest', hes, hrest⟩
  · rcases List.cons_eq_append_iff.1 htail with ⟨rfl, hhead⟩ | ⟨inside, rfl, hfs⟩
    · cases hhead
      exact ⟨[], es, by rw [List.append_nil, List.nil_append], hdeep⟩
    · obtain ⟨outer, inner, rfl, hinner⟩ := h' inside k owner rest hfs
      exact ⟨(⟨d, .statement s⟩ :: es) ++ ⟨d, .otherwise s⟩ :: outer, inner, by simp, hinner⟩
  · cases rest' with
    | nil =>
      cases hrest
      rw [List.append_nil] at hes
      exact ⟨[], es, hes.symm, hdeep⟩
    | cons e rest' =>
      obtain ⟨rfl, -⟩ := List.cons.inj hrest
      exact hbody front k owner rest' hes

end Owned

mutual

/-- In the outline of a statement every second block belongs to the conditional at its depth. -/
theorem Stmt.owned_outline (d : Nat) : ∀ s : Stmt, Owned (s.outline d)
  | .ifThen _ body _ => by
    rw [Stmt.outline]
    exact (Stmt.owned_outlineAll (d + 1) body).cons fun owner => by simp
  | .ifElse _ body other _ => by
    rw [Stmt.outline]
    exact (Stmt.owned_outlineAll (d + 1) body).conditional (Stmt.le_depthAll (d + 1) body)
      (Stmt.owned_outlineAll (d + 1) other)
  | .define ⟨_, methods, _⟩ _ => by
    rw [Stmt.outline]
    exact (Method.owned_outlineAll (d + 1) methods).cons fun owner => by simp
  | .assign _ _ _ | .assignField _ _ _ _ | .print _ _ | .ret _ _ | .eval _ => by
    rw [Stmt.outline]
    exact Owned.nil.cons fun owner => by simp

theorem Stmt.owned_outlineAll (d : Nat) : ∀ ss : List Stmt, Owned (Stmt.outlineAll d ss)
  | [] => by
    rw [Stmt.outlineAll]
    exact Owned.nil
  | s :: ss => by
    rw [Stmt.outlineAll]
    exact (Stmt.owned_outline d s).append (Stmt.owned_outlineAll d ss)

theorem Method.owned_outlineAll (d : Nat) : ∀ ms : List Method, Owned (Method.outlineAll d ms)
  | [] => by
    rw [Method.outlineAll]
    exact Owned.nil
  | ⟨_, _, body⟩ :: ms => by
    rw [Method.outlineAll]
    have hbody := Stmt.owned_outlineAll (d + 1) body
    exact (hbody.append (Method.owned_outlineAll d ms)).cons fun owner => by simp

end

end Mython
