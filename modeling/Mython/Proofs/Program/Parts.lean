import Mathlib.Logic.Relation
import Mython.Proofs.Program.Outline

namespace Mython

/-- A piece of a program. -/
inductive Code where
  | expr (e : Expr)
  | stmt (s : Stmt)
  | method (m : Method)
  | cls (c : Class)

namespace Code

/-- The pieces that a piece consists of. -/
def parts : Code → List Code
  | expr (.field object _ _) => [expr object]
  | expr (.call object _ args _) => expr object :: args.map expr
  | expr (.construct c args _) => cls c :: args.map expr
  | expr (.stringify operand _) | expr (.negate operand _) | expr (.not operand _) => [expr operand]
  | expr (.arith _ left right _) | expr (.conj left right _) | expr (.disj left right _)
  | expr (.compare _ left right _) => [expr left, expr right]
  | expr (.number _ _) | expr (.text _ _) | expr (.truth _ _) | expr (.none _)
  | expr (.path _ _ _) => []
  | stmt (.assign _ value _) => [expr value]
  | stmt (.assignField object _ value _) => [expr object, expr value]
  | stmt (.print args _) => args.map expr
  | stmt (.ret value _) => value.toList.map expr
  | stmt (.ifThen condition body _) => expr condition :: body.map stmt
  | stmt (.ifElse condition body other _) => expr condition :: (body ++ other).map stmt
  | stmt (.define c _) => [cls c]
  | stmt (.eval e) => [expr e]
  | method m => m.body.map stmt
  | cls c => c.methods.map method ++ c.parent.toList.map cls

/-- The place to report for a piece of code. Only what can be run by itself has one. -/
def pos? : Code → Option Position
  | expr e => some e.pos
  | stmt s => some s.pos
  | method _ | cls _ => none

/-- A piece has another one somewhere in it, or is it. -/
abbrev Contains : Code → Code → Prop := Relation.ReflTransGen fun a b => b ∈ a.parts

/-- Whether all pieces of a piece satisfy a test, as far down as is looked. -/
def every (test : Code → Bool) : Nat → Code → Bool
  | 0, _ => false
  | n + 1, code => test code && code.parts.all (every test n)

theorem of_every {test : Code → Bool} {n : Nat} {a b : Code} (h : every test n a = true)
    (hc : a.Contains b) : test b = true := by
  induction hc using Relation.ReflTransGen.head_induction_on generalizing n with
  | refl =>
    cases n with
    | zero => cases h
    | succ n => exact (Bool.and_eq_true_iff.1 h).1
  | head hpart _ ih =>
    cases n with
    | zero => cases h
    | succ n => exact ih (List.all_eq_true.1 (Bool.and_eq_true_iff.1 h).2 _ hpart)

end Code

namespace Class

/-- The classes that a class extends are among its parts. -/
theorem contains_of_mem_chain {c k : Class} (h : k ∈ c.chain) : (Code.cls c).Contains (.cls k) := by
  induction c using chain.induct with
  | case1 name methods =>
    rw [chain, List.mem_singleton] at h
    rw [h]
  | case2 name methods parent ih =>
    rw [chain, List.mem_cons] at h
    rcases h with rfl | h
    · exact .refl
    · exact .head (by simp [Code.parts]) (ih h)

/-- What a class runs for a name is among its parts. -/
theorem contains_of_method? {c : Class} {name : String} {method : Method}
    (h : c.method? name = some method) : (Code.cls c).Contains (.method method) := by
  obtain ⟨k, hk, hown⟩ := List.exists_of_findSome?_eq_some h
  have hmem : method ∈ k.methods := List.mem_reverse.1 (List.mem_of_find?_eq_some hown)
  exact (contains_of_mem_chain hk).tail (by simp [Code.parts, hmem])

end Class

namespace Program

/-- A program has a piece somewhere in it. -/
def Contains (p : Program) (code : Code) : Prop := ∃ s ∈ p.body, (Code.stmt s).Contains code

end Program

end Mython
