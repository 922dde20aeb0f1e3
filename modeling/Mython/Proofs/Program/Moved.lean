import Mython.Program.Statement

namespace Mython

/-- The place some lines below. -/
def Position.down (n : Nat) (p : Position) : Position := ⟨p.line + n, p.column⟩

/-- The same token some lines below. -/
def Token.down (n : Nat) (t : Token) : Token := ⟨t.kind, t.pos.down n⟩

mutual

/-- An expression some lines below. -/
def Expr.down (n : Nat) : Expr → Expr
  | .number value pos => .number value (pos.down n)
  | .text content pos => .text content (pos.down n)
  | .truth value pos => .truth value (pos.down n)
  | .none pos => .none (pos.down n)
  | .path root fields pos => .path root fields (pos.down n)
  | .field object name pos => .field (object.down n) name (pos.down n)
  | .call object method args pos => .call (object.down n) method (Expr.downAll n args) (pos.down n)
  | .construct cls args pos => .construct (cls.down n) (Expr.downAll n args) (pos.down n)
  | .stringify arg pos => .stringify (arg.down n) (pos.down n)
  | .arith op left right pos => .arith op (left.down n) (right.down n) (pos.down n)
  | .conj left right pos => .conj (left.down n) (right.down n) (pos.down n)
  | .disj left right pos => .disj (left.down n) (right.down n) (pos.down n)
  | .compare relation left right pos => .compare relation (left.down n) (right.down n) (pos.down n)
  | .negate operand pos => .negate (operand.down n) (pos.down n)
  | .not operand pos => .not (operand.down n) (pos.down n)

/-- Several expressions some lines below. -/
def Expr.downAll (n : Nat) : List Expr → List Expr
  | [] => []
  | e :: es => e.down n :: Expr.downAll n es

/-- A statement some lines below. -/
def Stmt.down (n : Nat) : Stmt → Stmt
  | .assign name value pos => .assign name (value.down n) (pos.down n)
  | .assignField object field value pos =>
    .assignField (object.down n) field (value.down n) (pos.down n)
  | .print args pos => .print (Expr.downAll n args) (pos.down n)
  | .ret none pos => .ret none (pos.down n)
  | .ret (some value) pos => .ret (some (value.down n)) (pos.down n)
  | .ifThen condition body pos => .ifThen (condition.down n) (Stmt.downAll n body) (pos.down n)
  | .ifElse condition body other pos =>
    .ifElse (condition.down n) (Stmt.downAll n body) (Stmt.downAll n other) (pos.down n)
  | .define cls pos => .define (cls.down n) (pos.down n)
  | .eval e => .eval (e.down n)

/-- Several statements some lines below. -/
def Stmt.downAll (n : Nat) : List Stmt → List Stmt
  | [] => []
  | s :: ss => s.down n :: Stmt.downAll n ss

/-- Methods whose bodies are some lines below. -/
def Method.downAll (n : Nat) : List Method → List Method
  | [] => []
  | ⟨name, params, body⟩ :: ms => ⟨name, params, Stmt.downAll n body⟩ :: Method.downAll n ms

/-- A class whose methods are some lines below, those of the classes that it extends too. -/
def Class.down (n : Nat) : Class → Class
  | ⟨name, methods, none⟩ => ⟨name, Method.downAll n methods, none⟩
  | ⟨name, methods, some parent⟩ => ⟨name, Method.downAll n methods, some (parent.down n)⟩

end

/-- A method whose body is some lines below. -/
def Method.down (n : Nat) (m : Method) : Method := ⟨m.name, m.params, Stmt.downAll n m.body⟩

/-- A program some lines below. -/
def Program.down (n : Nat) (p : Program) : Program := ⟨Stmt.downAll n p.body⟩

@[simp]
theorem Position.down_zero (p : Position) : p.down 0 = p := rfl

theorem Expr.downAll_eq_map (n : Nat) (es : List Expr) : downAll n es = es.map (down n) := by
  induction es with
  | nil => rfl
  | cons e es ih => rw [downAll, ih, List.map_cons]

theorem Stmt.downAll_eq_map (n : Nat) (ss : List Stmt) : downAll n ss = ss.map (down n) := by
  induction ss with
  | nil => rfl
  | cons s ss ih => rw [downAll, ih, List.map_cons]

theorem Method.downAll_eq_map (n : Nat) (ms : List Method) : downAll n ms = ms.map (down n) := by
  induction ms with
  | nil => rfl
  | cons m ms ih =>
    obtain ⟨name, params, body⟩ := m
    rw [downAll, ih, List.map_cons, down]

/-- A class some lines below, with the class that it extends. -/
theorem Class.down_mk (n : Nat) (name : String) (methods : List Method) (parent : Option Class) :
    Class.down n ⟨name, methods, parent⟩ =
      ⟨name, methods.map (Method.down n), parent.map (Class.down n)⟩ := by
  cases parent <;> rw [Class.down, Method.downAll_eq_map] <;> rfl

@[simp]
theorem Class.name_down (n : Nat) (c : Class) : (c.down n).name = c.name := by
  obtain ⟨name, methods, parent⟩ := c
  rw [Class.down_mk]

@[simp]
theorem Expr.pos_down (n : Nat) (e : Expr) : (e.down n).pos = e.pos.down n := by
  cases e <;> rw [Expr.down] <;> rfl

theorem Expr.select_down (n : Nat) (e : Expr) (word : String) :
    (e.select word).down n = (e.down n).select word := by
  cases e <;> simp only [Expr.select, Expr.down, Expr.pos]

/-- What can be assigned to can be assigned to further below, and alike. -/
theorem Parse.assignment?_down (n : Nat) (target value : Expr) (pos : Position) :
    assignment? (target.down n) (value.down n) (pos.down n) =
      (assignment? target value pos).map (Stmt.down n) := by
  cases target with
  | path root fields origin =>
    rw [Expr.down, assignment?, assignment?]
    cases fields.getLast? with
    | none => rw [Option.map_some, Stmt.down]
    | some last => rw [Option.map_some, Stmt.down, Expr.down]
  | field object name origin =>
    rw [Expr.down, assignment?, assignment?, Option.map_some, Stmt.down]
  | _ =>
    rw [Expr.down]
    rfl

mutual

/-- Nothing moves by no lines. -/
theorem Expr.down_zero : ∀ e : Expr, e.down 0 = e
  | .number _ _ | .text _ _ | .truth _ _ | .none _ | .path _ _ _ => by
    simp only [Expr.down, Position.down_zero]
  | .field object _ _ => by simp only [Expr.down, Position.down_zero, object.down_zero]
  | .call object _ args _ => by
    simp only [Expr.down, Position.down_zero, object.down_zero, Expr.downAll_zero args]
  | .construct cls args _ => by
    simp only [Expr.down, Position.down_zero, cls.down_zero, Expr.downAll_zero args]
  | .stringify operand _ | .negate operand _ | .not operand _ => by
    simp only [Expr.down, Position.down_zero, operand.down_zero]
  | .arith _ left right _ | .conj left right _ | .disj left right _ | .compare _ left right _ => by
    simp only [Expr.down, Position.down_zero, left.down_zero, right.down_zero]

theorem Expr.downAll_zero : ∀ es : List Expr, Expr.downAll 0 es = es
  | [] => rfl
  | e :: es => by simp only [Expr.downAll, e.down_zero, Expr.downAll_zero es]

theorem Stmt.down_zero : ∀ s : Stmt, s.down 0 = s
  | .assign _ value _ => by simp only [Stmt.down, Position.down_zero, value.down_zero]
  | .assignField object _ value _ => by
    simp only [Stmt.down, Position.down_zero, object.down_zero, value.down_zero]
  | .print args _ => by simp only [Stmt.down, Position.down_zero, Expr.downAll_zero args]
  | .ret none _ => by simp only [Stmt.down, Position.down_zero]
  | .ret (some value) _ => by simp only [Stmt.down, Position.down_zero, value.down_zero]
  | .ifThen condition body _ => by
    simp only [Stmt.down, Position.down_zero, condition.down_zero, Stmt.downAll_zero body]
  | .ifElse condition body other _ => by
    simp only [Stmt.down, Position.down_zero, condition.down_zero, Stmt.downAll_zero body,
      Stmt.downAll_zero other]
  | .define cls _ => by simp only [Stmt.down, Position.down_zero, cls.down_zero]
  | .eval e => by simp only [Stmt.down, e.down_zero]

theorem Stmt.downAll_zero : ∀ ss : List Stmt, Stmt.downAll 0 ss = ss
  | [] => rfl
  | s :: ss => by simp only [Stmt.downAll, s.down_zero, Stmt.downAll_zero ss]

theorem Method.downAll_zero : ∀ ms : List Method, Method.downAll 0 ms = ms
  | [] => rfl
  | ⟨_, _, body⟩ :: ms => by
    simp only [Method.downAll, Stmt.downAll_zero body, Method.downAll_zero ms]

theorem Class.down_zero : ∀ c : Class, c.down 0 = c
  | ⟨_, methods, none⟩ => by simp only [Class.down, Method.downAll_zero methods]
  | ⟨_, methods, some parent⟩ => by
    simp only [Class.down, Method.downAll_zero methods, parent.down_zero]

end

end Mython
