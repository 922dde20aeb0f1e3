import Mython.Proofs.Program.Parts
import Mython.Proofs.Run.Calling

namespace Mython

open Run

/-- Something that a step does besides changing the heap. -/
inductive Act where
  /-- Reports a line, if it does not succeed. -/
  | reports (line : Nat)
  | binds (name : String)

/-- Code that has the parts of all its pieces, whose lines may all be reported. -/
structure Code.Reported (code : Code → Prop) (ok : Act → Prop) : Prop where
  closed : ∀ {a b : Code}, code a → b ∈ a.parts → code b
  line : ∀ {a : Code} {pos : Position}, code a → a.pos? = some pos → ok (.reports pos.line)

mutual

/-- The names that a statement assigns, in the blocks of conditionals too. -/
def Stmt.assigned : Stmt → List String
  | .assign name _ _ => [name]
  | .define cls _ => [cls.name]
  | .ifThen _ body _ => Stmt.assignedAll body
  | .ifElse _ body other _ => Stmt.assignedAll body ++ Stmt.assignedAll other
  | .assignField _ _ _ _ | .print _ _ | .ret _ _ | .eval _ => []

/-- The names that statements assign. -/
def Stmt.assignedAll : List Stmt → List String
  | [] => []
  | s :: ss => s.assigned ++ Stmt.assignedAll ss

end

/-- Whether what a primitive step may do satisfies a test. -/
def Primitive.Every (ok : Act → Prop) {α : Type} {p : Multiset Handle} {f : Run α}
    {q : α → Multiset Handle} : Primitive p f q → Prop
  | .raise line _ _ | .compute line _ _ | .path _ _ line | .fetch _ _ _ line | .write line _ =>
    ok (.reports line)
  | .assign name _ => ok (.binds name)
  | _ => True

/-- Whether all that the steps of a script may do satisfies a test. A request counts by the line
that it is to report, whatever is done to answer it. -/
def Script.Every (ok : Act → Prop) {α : Type} {p : Multiset Handle} {f : Guest → Run α}
    {q : α → Multiset Handle} : Script p f q → Prop
  | .step h | .frame _ h _ => h.Every ok
  | .bind h hk => h.Every ok ∧ ∀ a, (hk a).Every ok
  | .holding _ h | .keeping _ h | .conv h _ _ _ => h.Every ok
  | .seize _ hb ho => (∀ loc, (hb loc).Every ok) ∧ ∀ found, (ho found).Every ok
  | .bestow _ _ _ line h => ok (.reports line) ∧ h.Every ok
  | .call _ _ _ line | .render _ line => ok (.reports line)

namespace Script.Every

variable {ok : Act → Prop} {p : Multiset Handle}

theorem branch {c : Prop} [Decidable c] {f f' : Guest → Run α} {q : α → Multiset Handle}
    {s : Script p f q} {s' : Script p f' q} (h : s.Every ok) (h' : s'.Every ok) :
    (Script.branch c s s').Every ok := by
  rw [Script.branch]
  split
  · exact h
  · exact h'

theorem asking {look : Heap → α} {k : Guest → α → Run β} {q : β → Multiset Handle}
    {hk : ∀ a, Script p (fun g => k g a) q} (h : ∀ a, (hk a).Every ok) :
    (Script.asking look hk).Every ok :=
  ⟨trivial, h⟩

theorem hold {f : Guest → Run Handle} {k : Guest → Handle → Run α} {q : α → Multiset Handle}
    {s : Script p f Handle.held} {sk : ∀ x, Script 0 (fun g => k g x) q} (h : s.Every ok)
    (hk : ∀ x, (sk x).Every ok) : (s.hold sk).Every ok :=
  ⟨h, hk⟩

theorem truthOf (look : Heap → Bool) : (Script.truthOf look).Every ok :=
  asking fun _ => trivial

end Script.Every

section Code

variable {code : Code → Prop} {ok : Act → Prop}

theorem Run.every_arithmetic (op : ArithOp) (x y : Handle) {line : Nat}
    (hline : ok (.reports line)) : (arithmeticScript op x y line).Every ok := by
  apply Script.Every.asking
  intro left
  apply Script.Every.branch
  · exact hline
  apply Script.Every.asking
  intro right
  exact .branch hline hline

theorem Run.every_prepare {cls : Class} {x : Handle} {args : List Expr} {line : Nat}
    {s : Script 0 (fun g => Expr.evalAll g args) Handle.heldAll} (h : s.Every ok)
    (hline : ok (.reports line)) : (prepareScript cls x line s).Every ok :=
  ⟨h, fun _ => .branch ⟨hline, fun _ => trivial⟩ trivial⟩

mutual

/-- The script of an expression reports lines of its pieces and binds nothing. -/
theorem Expr.every (hc : Code.Reported code ok) : (e : Expr) → code (.expr e) → e.script.Every ok
  | .number _ _, _ | .text _ _, _ | .truth _ _, _ | .none _, _ => trivial
  | .path root fields pos, h => hc.line h rfl
  | .field object name pos, h => by
    have hobject : code (.expr object) := hc.closed h (by simp [Code.parts])
    exact .hold (object.every hc hobject) fun _ => hc.line h rfl
  | .call object method args pos, h => by
    have hobject : code (.expr object) := hc.closed h (by simp [Code.parts])
    have hargs : ∀ e ∈ args, code (.expr e) := fun e he => hc.closed h (by simp [Code.parts, he])
    have hline : ok (.reports pos.line) := hc.line h rfl
    apply Script.Every.hold (object.every hc hobject)
    intro x
    apply Script.Every.asking
    intro found
    exact .branch ⟨Expr.everyAll hc args hargs, fun _ => hline⟩ hline
  | .construct cls args pos, h => by
    have hargs : ∀ e ∈ args, code (.expr e) := fun e he => hc.closed h (by simp [Code.parts, he])
    exact ⟨trivial, fun _ => ⟨every_prepare (Expr.everyAll hc args hargs) (hc.line h rfl),
      fun _ => trivial⟩⟩
  | .stringify arg pos, h => by
    have harg : code (.expr arg) := hc.closed h (by simp [Code.parts])
    exact ⟨arg.every hc harg, fun _ => ⟨hc.line h rfl, fun _ => trivial⟩⟩
  | .arith op left right pos, h => by
    have hleft : code (.expr left) := hc.closed h (by simp [Code.parts])
    have hright : code (.expr right) := hc.closed h (by simp [Code.parts])
    have hline : ok (.reports pos.line) := hc.line h rfl
    exact ⟨left.every hc hleft, fun x => ⟨right.every hc hright, fun y =>
      every_arithmetic op x y hline⟩⟩
  | .conj left right _, h => by
    have hleft : code (.expr left) := hc.closed h (by simp [Code.parts])
    have hright : code (.expr right) := hc.closed h (by simp [Code.parts])
    apply Script.Every.hold (left.every hc hleft)
    intro x
    apply Script.Every.asking
    intro found
    exact .branch (.hold (right.every hc hright) fun _ => .truthOf _) trivial
  | .disj left right _, h => by
    have hleft : code (.expr left) := hc.closed h (by simp [Code.parts])
    have hright : code (.expr right) := hc.closed h (by simp [Code.parts])
    apply Script.Every.hold (left.every hc hleft)
    intro x
    apply Script.Every.asking
    intro found
    exact .branch trivial (.hold (right.every hc hright) fun _ => .truthOf _)
  | .compare relation left right _, h => by
    have hleft : code (.expr left) := hc.closed h (by simp [Code.parts])
    have hright : code (.expr right) := hc.closed h (by simp [Code.parts])
    apply Script.Every.hold (left.every hc hleft)
    intro x
    exact .hold (right.every hc hright) fun _ => .truthOf _
  | .negate operand pos, h => by
    have hoperand : code (.expr operand) := hc.closed h (by simp [Code.parts])
    exact .hold (operand.every hc hoperand) fun _ => hc.line h rfl
  | .not operand _, h => by
    have hoperand : code (.expr operand) := hc.closed h (by simp [Code.parts])
    exact .hold (operand.every hc hoperand) fun _ => .asking fun _ => trivial

theorem Expr.everyAll (hc : Code.Reported code ok) : (es : List Expr) →
    (∀ e ∈ es, code (.expr e)) → (Expr.scriptAll es).Every ok
  | [], _ => trivial
  | e :: es, h =>
    ⟨e.every hc (h e List.mem_cons_self), fun _ =>
      ⟨Expr.everyAll hc es fun e he => h e (List.mem_cons_of_mem _ he), fun _ => trivial⟩⟩

end

theorem Expr.every_textAll (hc : Code.Reported code ok) {line : Nat}
    (hline : ok (.reports line)) (es : List Expr) (h : ∀ e ∈ es, code (.expr e)) :
    (Expr.textAllScript line es).Every ok := by
  induction es with
  | nil => trivial
  | cons e es ih =>
    have hrest := ih fun e he => h e (List.mem_cons_of_mem _ he)
    exact ⟨e.every hc (h e List.mem_cons_self), fun _ =>
      ⟨hline, fun _ => ⟨hrest, fun _ => trivial⟩⟩⟩

theorem Run.every_assign {name : String} (hname : ok (.binds name)) (x : Handle) :
    (assignScript name x).Every ok :=
  ⟨trivial, fun _ => ⟨hname, fun _ => trivial⟩⟩

mutual

/-- The script of a statement reports lines of its pieces and binds names that it assigns. -/
theorem Stmt.every (hc : Code.Reported code ok) : (s : Stmt) → code (.stmt s) →
    (∀ name ∈ s.assigned, ok (.binds name)) → s.script.Every ok
  | .assign name value _, h, hb => by
    have hvalue : code (.expr value) := hc.closed h (by simp [Code.parts])
    have hname : ok (.binds name) := hb name (by simp [Stmt.assigned])
    exact ⟨value.every hc hvalue, every_assign hname⟩
  | .assignField object field value pos, h, _ => by
    have hobject : code (.expr object) := hc.closed h (by simp [Code.parts])
    have hvalue : code (.expr value) := hc.closed h (by simp [Code.parts])
    apply Script.Every.hold (object.every hc hobject)
    intro target
    exact ⟨hc.line h rfl, value.every hc hvalue⟩
  | .print args pos, h, _ => by
    have hargs : ∀ e ∈ args, code (.expr e) := fun e he => hc.closed h (by simp [Code.parts, he])
    have hline : ok (.reports pos.line) := hc.line h rfl
    exact ⟨Expr.every_textAll hc hline args hargs, fun _ => ⟨hline, fun _ => trivial⟩⟩
  | .ret (some value) _, h, _ => by
    have hvalue : code (.expr value) := hc.closed h (by simp [Code.parts])
    exact ⟨value.every hc hvalue, fun _ => trivial⟩
  | .ret none _, _, _ => trivial
  | .ifThen condition body _, h, hb => by
    have hcondition : code (.expr condition) := hc.closed h (by simp [Code.parts])
    have hbody : ∀ s ∈ body, code (.stmt s) := fun s hs =>
      hc.closed h (by simp [Code.parts, hs])
    apply Script.Every.hold (condition.every hc hcondition)
    intro x
    apply Script.Every.asking
    intro found
    exact .branch (Stmt.everyAll hc body hbody hb) trivial
  | .ifElse condition body other _, h, hb => by
    have hcondition : code (.expr condition) := hc.closed h (by simp [Code.parts])
    have hbody : ∀ s ∈ body, code (.stmt s) := fun s hs =>
      hc.closed h (by simp [Code.parts, hs])
    have hother : ∀ s ∈ other, code (.stmt s) := fun s hs =>
      hc.closed h (by simp [Code.parts, hs])
    rw [Stmt.assigned] at hb
    apply Script.Every.hold (condition.every hc hcondition)
    intro x
    apply Script.Every.asking
    intro found
    exact .branch
      (Stmt.everyAll hc body hbody fun name hname => hb name (List.mem_append_left _ hname))
      (Stmt.everyAll hc other hother fun name hname => hb name (List.mem_append_right _ hname))
  | .define cls _, _, hb =>
    ⟨trivial, every_assign (hb cls.name (by simp [Stmt.assigned]))⟩
  | .eval e, h, _ => by
    have he : code (.expr e) := hc.closed h (by simp [Code.parts])
    exact ⟨e.every hc he, fun _ => trivial⟩

theorem Stmt.everyAll (hc : Code.Reported code ok) : (ss : List Stmt) →
    (∀ s ∈ ss, code (.stmt s)) → (∀ name ∈ Stmt.assignedAll ss, ok (.binds name)) →
    (Stmt.scriptAll ss).Every ok
  | [], _, _ => trivial
  | s :: ss, h, hb => by
    rw [Stmt.assignedAll] at hb
    have hfirst := s.every hc (h s List.mem_cons_self) fun name hname =>
      hb name (List.mem_append_left _ hname)
    have hrest := Stmt.everyAll hc ss (fun s hs => h s (List.mem_cons_of_mem _ hs))
      fun name hname => hb name (List.mem_append_right _ hname)
    refine ⟨hfirst, ?_⟩
    rintro (x | x)
    · exact ⟨trivial, fun _ => hrest⟩
    · trivial

end

end Code

namespace Guest

variable {ok : Act → Prop}

theorem every_textOf (x : Handle) {line : Nat} (hline : ok (.reports line)) :
    (textOfScript x line).Every ok :=
  .hold hline fun _ => hline

theorem every_otherText {line : Nat} (hline : ok (.reports line)) (place : Option Loc)
    (found : Option Object) : (otherTextScript line place found).Every ok := by
  cases place with
  | none => cases found <;> trivial
  | some loc =>
    cases found with
    | none => trivial
    | some object =>
      cases object with
      | cls c => exact .branch (.hold trivial fun y => every_textOf y hline) trivial
      | _ => trivial

theorem every_assignAll {names : List String} {xs : List Handle} (h : names.length = xs.length)
    (hnames : ∀ name ∈ names, ok (.binds name)) : (assignAllScript names xs h).Every ok := by
  induction names, xs, h using assignAllScript.induct with
  | case1 => trivial
  | case2 name names x xs h ih =>
    have hrest := ih fun other hother => hnames other (List.mem_cons_of_mem _ hother)
    exact ⟨hnames name List.mem_cons_self, fun _ => hrest⟩

/-- A body is run by its statements, in the scope that its parameters are bound in. -/
theorem every_body {code : Code → Prop} (hc : Code.Reported code ok) {method : Method}
    {args : List Handle} (harity : method.arity = args.length) (h : code (.method method))
    (hparams : ∀ name ∈ method.params, ok (.binds name))
    (hbody : ∀ name ∈ Stmt.assignedAll method.body, ok (.binds name)) :
    (bodyScript method args harity).Every ok := by
  have hstmts : ∀ s ∈ method.body, code (.stmt s) := fun s hs =>
    hc.closed h (by simp [Code.parts, hs])
  refine ⟨every_assignAll harity hparams, fun _ => ⟨Stmt.everyAll hc method.body hstmts hbody, ?_⟩⟩
  rintro (x | x)
  · exact ⟨trivial, fun _ => trivial⟩
  · trivial

/-- A text is found by requests that report the line given, and without binding anything. -/
theorem every_text (x : Handle) {line : Nat} (hline : ok (.reports line)) :
    (textScript x line).Every ok :=
  ⟨fun _ => every_textOf x hline, fun found => every_otherText hline x.loc? found⟩

end Guest

end Mython
