import Mython.Store.Handle

namespace Mython

mutual

/-- Whether an expression selects the field `self` from something, in its classes too. -/
def Expr.readsSelf : Expr → Bool
  | .number _ _ | .text _ _ | .truth _ _ | .none _ => false
  | .path _ fields _ => fields.contains selfName
  | .field object name _ => object.readsSelf || name == selfName
  | .call object _ args _ => object.readsSelf || Expr.anyReadsSelf args
  | .construct cls args _ => cls.readsSelf || Expr.anyReadsSelf args
  | .stringify operand _ | .negate operand _ | .not operand _ => operand.readsSelf
  | .arith _ left right _ | .conj left right _ | .disj left right _ | .compare _ left right _ =>
    left.readsSelf || right.readsSelf

/-- Whether one of several expressions does. -/
def Expr.anyReadsSelf : List Expr → Bool
  | [] => false
  | e :: es => e.readsSelf || Expr.anyReadsSelf es

/-- Whether a statement does, in the classes that it defines too. -/
def Stmt.readsSelf : Stmt → Bool
  | .assign _ value _ => value.readsSelf
  | .assignField object _ value _ => object.readsSelf || value.readsSelf
  | .print args _ => Expr.anyReadsSelf args
  | .ret none _ => false
  | .ret (some value) _ => value.readsSelf
  | .ifThen condition body _ => condition.readsSelf || Stmt.anyReadsSelf body
  | .ifElse condition body other _ =>
    condition.readsSelf || Stmt.anyReadsSelf body || Stmt.anyReadsSelf other
  | .define cls _ => cls.readsSelf
  | .eval e => e.readsSelf

/-- Whether one of several statements does. -/
def Stmt.anyReadsSelf : List Stmt → Bool
  | [] => false
  | s :: ss => s.readsSelf || Stmt.anyReadsSelf ss

/-- Whether the body of one of several methods does. A later method of the same name replaces an
earlier one, whose body is never run. -/
def Method.anyReadsSelf : List Method → Bool
  | [] => false
  | ⟨name, _, body⟩ :: methods =>
    !methods.any (fun m => m.name == name) && Stmt.anyReadsSelf body || Method.anyReadsSelf methods

/-- Whether a method of a class or of one that it extends does. -/
def Class.readsSelf : Class → Bool
  | ⟨_, methods, none⟩ => Method.anyReadsSelf methods
  | ⟨_, methods, some parent⟩ => Method.anyReadsSelf methods || parent.readsSelf

end

/-- Whether a program reads the field `self` of something anywhere. -/
def Program.readsSelf (p : Program) : Bool := Stmt.anyReadsSelf p.body

namespace Class

/-- The last method of a name is one that is not replaced. -/
theorem anyReadsSelf_of_find? {methods : List Method} (h : Method.anyReadsSelf methods = false)
    {name : String} {method : Method}
    (hm : methods.reverse.find? (fun m => m.name == name) = some method) :
    Stmt.anyReadsSelf method.body = false := by
  induction methods with
  | nil => cases hm
  | cons first rest ih =>
    obtain ⟨other, params, body⟩ := first
    rw [Method.anyReadsSelf, Bool.or_eq_false_iff] at h
    rw [List.reverse_cons, List.find?_append] at hm
    cases hlater : rest.reverse.find? (fun m => m.name == name) with
    | some found =>
      rw [hlater, Option.some_or] at hm
      exact ih h.2 (hlater.trans hm)
    | none =>
      rw [hlater, Option.none_or] at hm
      have hmem := List.mem_singleton.1 (List.mem_of_find?_eq_some hm)
      have hname := @List.find?_some _ (fun m : Method => m.name == name) _ _ hm
      subst hmem
      have hlast : rest.any (fun m => m.name == other) = false := by
        rw [List.any_eq_false]
        intro m hrest hsame
        have hnot := List.find?_eq_none.1 hlater m (List.mem_reverse.2 hrest)
        rw [eq_of_beq hsame] at hnot
        exact hnot hname
      simpa [hlast] using h.1

theorem readsSelf_of_mem_chain {c k : Class} (h : c.readsSelf = false) (hk : k ∈ c.chain) :
    Method.anyReadsSelf k.methods = false := by
  induction c using chain.induct with
  | case1 name methods =>
    rw [chain, List.mem_singleton] at hk
    rw [hk]
    exact h
  | case2 name methods parent ih =>
    rw [readsSelf, Bool.or_eq_false_iff] at h
    rw [chain, List.mem_cons] at hk
    rcases hk with rfl | hk
    · exact h.1
    · exact ih h.2 hk

/-- What a class that does not read the field finds does not read it either. -/
theorem readsSelf_of_method? {c : Class} {name : String} {method : Method}
    (h : c.readsSelf = false) (hm : c.method? name = some method) :
    Stmt.anyReadsSelf method.body = false := by
  obtain ⟨k, hk, howned⟩ := List.exists_of_findSome?_eq_some hm
  exact anyReadsSelf_of_find? (readsSelf_of_mem_chain h hk) howned

end Class

end Mython
