import Mython.Proofs.Run.Script

namespace Mython

open Run

namespace ArithOp

theorem onNumbers_isDepth {op : ArithOp} {a b : Number} {cause : Fault.Cause}
    (h : op.onNumbers a b = .error cause) : cause.isDepth = false := by
  rw [onNumbers] at h
  split at h
  · cases h
    rfl
  · split at h <;> cases h
    rfl

theorem onValues_isDepth {op : ArithOp} {heap : Heap} {x y : Handle} {cause : Fault.Cause}
    (h : op.onValues heap x y = .error cause) : cause.isDepth = false := by
  rw [onValues.eq_def] at h
  split at h
  · cases h
  · next op _ _ _ a b _ _ =>
    cases hn : op.onNumbers a b with
    | ok value =>
      rw [hn] at h
      cases h
    | error found =>
      rw [hn] at h
      cases h
      exact onNumbers_isDepth hn
  · cases h
    rfl

/-- A result of arithmetic is a text or a number. -/
theorem onValues_ok {op : ArithOp} {heap : Heap} {x y : Handle} {object : Object}
    (h : op.onValues heap x y = .ok object) :
    (∃ content, object = .text content) ∨ ∃ value, object = .number value := by
  rw [onValues.eq_def] at h
  split at h
  · cases h
    exact Or.inl ⟨_, rfl⟩
  · next op _ _ _ a b _ _ =>
    cases hn : op.onNumbers a b with
    | ok value =>
      rw [hn] at h
      cases h
      exact Or.inr ⟨value, rfl⟩
    | error found =>
      rw [hn] at h
      cases h
  · cases h

theorem onValues_plain {op : ArithOp} {heap : Heap} {x y : Handle} {object : Object}
    (h : op.onValues heap x y = .ok object) : object.fields? = none := by
  obtain ⟨_, rfl⟩ | ⟨_, rfl⟩ := onValues_ok h <;> rfl

end ArithOp

namespace Heap

theorem negated_isDepth {h : Heap} {x : Handle} {cause : Fault.Cause}
    (hn : h.negated x = .error cause) : cause.isDepth = false := by
  rw [negated] at hn
  split at hn
  · cases hn
    rfl
  · split at hn <;> cases hn
    rfl

theorem field_isDepth {h : Heap} {x : Handle} {owner name : String} {cause : Fault.Cause}
    (hf : h.field x owner name = .error cause) : cause.isDepth = false := by
  rw [field] at hf
  split at hf
  · cases hf
    rfl
  · split at hf <;> cases hf
    rfl

theorem follow_isDepth {h : Heap} {owner : String} {x : Handle} {names : List String}
    {cause : Fault.Cause} (hf : h.follow owner x names = .error cause) : cause.isDepth = false := by
  induction names generalizing owner x with
  | nil => cases hf
  | cons name names ih =>
    rw [follow] at hf
    cases hfield : h.field x owner name with
    | error found =>
      rw [hfield] at hf
      cases hf
      exact field_isDepth hfield
    | ok y =>
      rw [hfield] at hf
      exact ih hf

theorem negated_ok {h : Heap} {x : Handle} {object : Object} (hn : h.negated x = .ok object) :
    ∃ value, object = .number value := by
  rw [negated] at hn
  split at hn
  · cases hn
  · split at hn <;> cases hn
    exact ⟨_, rfl⟩

theorem negated_plain {h : Heap} {x : Handle} {object : Object} (hn : h.negated x = .ok object) :
    object.fields? = none := by
  obtain ⟨_, rfl⟩ := negated_ok hn
  rfl

end Heap

/-- Arithmetic uses up its operands. The receiver of a sum is held during the call, and the other
operand belongs to the call. -/
def Run.arithmeticScript (op : ArithOp) (x y : Handle) (line : Nat) :
    Script (x.held + y.held) (fun g => arithmetic g op x y line) Handle.held :=
  .asking (fun h => (h.accepting? x addName 1).isSome) fun left =>
    .branch ((decide (op = .add) && left) = true)
      ((Script.holding x (.call x addName [y] line)).of_eq (by simp) fun _ => rfl)
      (.asking (fun h => (h.accepting? y addName 1).isSome) fun right =>
        .branch ((decide (op = .add) && right) = true)
          ((Script.holding y (.call y addName [x] line)).of_eq (by simp [add_comm]) fun _ => rfl)
          ((Script.holding x (.holding y (.step (.compute line (fun _ _ => ArithOp.onValues_plain)
            fun _ _ => ArithOp.onValues_isDepth)))).of_eq (by simp) fun _ => rfl))

/-- What is done with the arguments of a new instance. -/
def Run.prepare (g : Guest) (cls : Class) (x : Handle) (args : List Expr) (line : Nat) :
    Run Unit := do
  let xs ← Expr.evalAll g args
  if (cls.accepting? initName xs.length).isSome then
    release (← g.call x initName xs line)
  else
    releaseAll xs

/-- An instance that is returned at the end of what runs while it is kept can be returned right
after that as well. -/
theorem Run.keeping_prepare (g : Guest) (cls : Class) (x : Handle) (args : List Expr) (line : Nat) :
    (do keeping x (prepare g cls x args line); return x : Run Handle) =
    keeping x do
      let xs ← Expr.evalAll g args
      if (cls.accepting? initName xs.length).isSome then
        release (← g.call x initName xs line)
      else
        releaseAll xs
      return x := by
  rw [← keeping_return, prepare, bind_assoc]
  congr
  funext xs
  split
  · rw [bind_assoc]
  · rfl

/-- How an instance is prepared, given how its arguments are evaluated. -/
def Run.prepareScript (cls : Class) (x : Handle) {args : List Expr} (line : Nat)
    (h : Script 0 (fun g => Expr.evalAll g args) Handle.heldAll) :
    Script 0 (fun g => prepare g cls x args line) fun _ => 0 :=
  h.bind fun xs =>
    .branch ((cls.accepting? initName xs.length).isSome = true)
      ((Script.call x initName xs line).bind fun y => .step (.release y))
      (.step (.releaseAll xs))

mutual

/-- How an expression is evaluated. Its script hands over its value. -/
def Expr.script : (e : Expr) → Script 0 (fun g => e.eval g) Handle.held
  | .number _ _ | .text _ _ | .truth _ _ => .step (.fresh rfl)
  | .none _ => .pureHeld rfl
  | .path root fields pos => .step (.path root fields pos.line)
  | .field object name pos =>
    object.script.hold fun x => .step (.fetch x object.describe name pos.line)
  | .call object method args pos =>
    object.script.hold fun x => .asking (fun h => h.isInstance x) fun found =>
      .branch (found = true) ((Expr.scriptAll args).bind fun xs => .call x method xs pos.line)
        (.step (.raise pos.line rfl Handle.held))
  | .construct cls args pos =>
    (Script.step (.freshInstance cls)).bind fun x =>
      (((prepareScript cls x pos.line (Expr.scriptAll args)).keepingIt x).bind fun _ =>
        .pureHeld (add_zero _).symm).of_run fun g => keeping_prepare g cls x args pos.line
  | .stringify arg pos =>
    arg.script.bind fun x =>
      ((Script.render x pos.line).holdingIt x).bind fun _ => .step (.fresh rfl)
  | .arith op left right pos =>
    left.script.bind fun x =>
      (right.script.keepingIt x).bind fun y => arithmeticScript op x y pos.line
  | .conj left right _ =>
    left.script.hold fun x => .asking (fun h => h.isTrue x) fun found =>
      .branch (found = true) (right.script.hold fun y => .truthOf fun h => h.isTrue y)
        (.step (.fresh rfl))
  | .disj left right _ =>
    left.script.hold fun x => .asking (fun h => h.isTrue x) fun found =>
      .branch (found = true) (.step (.fresh rfl))
        (right.script.hold fun y => .truthOf fun h => h.isTrue y)
  | .compare relation left right _ =>
    left.script.hold fun x => right.script.hold fun y => .truthOf fun h => h.holds relation x y
  | .negate operand pos =>
    operand.script.hold fun _ =>
      .step (.compute pos.line (fun _ _ => Heap.negated_plain) fun _ _ => Heap.negated_isDepth)
  | .not operand _ =>
    operand.script.hold fun x => .asking (fun h => h.isTrue x) fun _ => .step (.fresh rfl)

/-- How expressions are evaluated one after another. -/
def Expr.scriptAll : (es : List Expr) → Script 0 (fun g => Expr.evalAll g es) Handle.heldAll
  | [] => .step (.pure [] Handle.heldAll)
  | e :: es =>
    e.script.bind fun x =>
      ((Expr.scriptAll es).keepingIt x).bind fun xs => .pureHeld (Handle.heldAll_cons x xs)

end

/-- How arguments are put into text. -/
def Expr.textAllScript (line : Nat) :
    (es : List Expr) → Script 0 (fun g => Expr.textAll g line es) fun _ => 0
  | [] => .still []
  | e :: es =>
    e.script.bind fun x =>
      ((Script.render x line).holdingIt x).bind fun _ =>
        (Expr.textAllScript line es).bind fun _ => .still _

/-- A value that is bound to a name is held once more, by the name. -/
def Run.assignScript (name : String) (x : Handle) :
    Script x.held (fun _ => do
      retain x
      assign name x
      return Completion.next x) Completion.held :=
  (Script.step (.retain x)).bind fun _ =>
    (Script.frame x.held (.assign name x) fun _ => ⟨_, _, rfl⟩).bind fun _ =>
      .pureHeld (zero_add _).symm

mutual

/-- How a statement is executed. Its script hands over the value in the end. -/
def Stmt.script : (s : Stmt) → Script 0 (fun g => s.exec g) Completion.held
  | .assign name value _ => value.script.bind fun x => assignScript name x
  | .assignField object field value pos =>
    object.script.hold fun target =>
      (Script.bestow target object.describe field pos.line value.script).of_run fun _ =>
        (holdingInstance_eq_seize target object.describe pos.line _).symm
  | .print args pos =>
    (Expr.textAllScript pos.line args).bind fun texts =>
      (Script.step (.write pos.line (" ".intercalate texts ++ "\n"))).bind fun _ => .pureHeld rfl
  | .ret (some value) _ => value.script.bind fun _ => .pureHeld rfl
  | .ret none _ => .pureHeld rfl
  | .ifThen condition body _ =>
    condition.script.hold fun x => .asking (fun h => h.isTrue x) fun found =>
      .branch (found = true) (Stmt.scriptAll body) (.pureHeld rfl)
  | .ifElse condition body other _ =>
    condition.script.hold fun x => .asking (fun h => h.isTrue x) fun found =>
      .branch (found = true) (Stmt.scriptAll body) (Stmt.scriptAll other)
  | .define cls _ => (Script.step (.fresh rfl)).bind fun x => assignScript cls.name x
  | .eval e => e.script.bind fun _ => .pureHeld rfl

/-- How statements are executed. Only the value of a return is handed over; every other one is let
go of at once. -/
def Stmt.scriptAll : (ss : List Stmt) → Script 0 (fun g => Stmt.execAll g ss) Completion.held
  | [] => .pureHeld rfl
  | s :: ss =>
    s.script.bind fun
      | .next x => (Script.step (.release x)).bind fun _ => Stmt.scriptAll ss
      | .ret _ => .pureHeld rfl

end

end Mython
