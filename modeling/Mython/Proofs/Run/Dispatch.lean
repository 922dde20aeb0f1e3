import Mython.Proofs.Run.Receiver
import Mython.Proofs.Run.Reckoning

namespace Mython

open Run

namespace Class

variable {c : Class} {name : String} {method : Method}

/-- A class runs a method for a name: the last definition of the name in the nearest class of the
chain that has one. -/
structure Runs (c : Class) (name : String) (method : Method) : Prop where
  named : method.name = name
  nearest : ∃ before k behind, c.chain = before ++ k :: behind ∧
    (∀ d ∈ before, ∀ other ∈ d.methods, other.name ≠ name) ∧
    ∃ front back, k.methods = front ++ method :: back ∧ ∀ other ∈ back, other.name ≠ name

theorem own?_eq_none_iff : c.own? name = none ↔ ∀ other ∈ c.methods, other.name ≠ name := by
  simp [own?]

/-- The methods are searched from the last one on. -/
theorem own?_eq_some_iff : c.own? name = some method ↔ method.name = name ∧
    ∃ front back, c.methods = front ++ method :: back ∧ ∀ other ∈ back, other.name ≠ name := by
  rw [own?, List.find?_eq_some_iff_append, beq_iff_eq]
  refine and_congr_right fun _ => ?_
  constructor
  · rintro ⟨back, front, hmethods, hback⟩
    refine ⟨front.reverse, back.reverse, ?_, ?_⟩
    · rw [← List.reverse_reverse c.methods, hmethods]
      simp
    · intro other hother
      simpa using hback other (List.mem_reverse.1 hother)
  · rintro ⟨front, back, hmethods, hback⟩
    refine ⟨back.reverse, front.reverse, ?_, ?_⟩
    · rw [hmethods]
      simp
    · intro other hother
      simpa using hback other (List.mem_reverse.1 hother)

theorem method?_eq_some_iff : c.method? name = some method ↔ c.Runs name method := by
  rw [method?, List.findSome?_eq_some_iff]
  constructor
  · rintro ⟨before, k, behind, hchain, hown, hbefore⟩
    obtain ⟨hnamed, hlast⟩ := own?_eq_some_iff.1 hown
    exact ⟨hnamed, before, k, behind, hchain, fun d hd => own?_eq_none_iff.1 (hbefore d hd), hlast⟩
  · rintro ⟨hnamed, before, k, behind, hchain, hbefore, hlast⟩
    exact ⟨before, k, behind, hchain, own?_eq_some_iff.2 ⟨hnamed, hlast⟩,
      fun d hd => own?_eq_none_iff.2 (hbefore d hd)⟩

theorem accepting?_eq_some_iff {arity : Nat} :
    c.accepting? name arity = some method ↔ c.Runs name method ∧ method.arity = arity := by
  rw [accepting?, Option.filter_eq_some_iff, method?_eq_some_iff, beq_iff_eq]

end Class

namespace Machine

variable {m : Machine} {x : Handle} {loc : Loc} {c : Class} {fields : Bindings} {name : String}
  {arity : Nat} {method : Method}

/-- A call that the class of its receiver offers is made, if it is not too deep. -/
theorem dispatch_of_accepting (hloc : x.loc? = some loc)
    (hget : m.heap.get? loc = some (.inst c fields))
    (haccepts : c.accepting? name arity = some method) (limit : Nat) :
    m.dispatch limit x name arity =
      if limit ≤ m.depth then .error (.depth limit) else .ok (loc, method) := by
  obtain ⟨hruns, harity⟩ := Class.accepting?_eq_some_iff.1 haccepts
  have hmethod : c.method? name = some method := Class.method?_eq_some_iff.2 hruns
  have hobject := Heap.object?_eq_get? (h := m.heap) hloc
  simp only [dispatch, hobject, hget, hloc, hmethod, harity, ne_eq, not_true_eq_false, if_false]

/-- The frame of a call on the instance at a place: it holds the parameters, each with the last
value given to its name, and the instance under its own name unless a parameter has that name. -/
structure Frames (m m' : Machine) (loc : Loc) (params : List String) (args : List Handle) :
    Prop where
  scope : ∀ name, m'.scope.get? name = ((params.zip args).reverse.lookup name).or
    (if name = selfName then some (.own loc) else none)
  sink : m'.sink = m.sink
  depth : m'.depth = m.depth + 1

/-- The state behind a call on the instance at a place, given the one behind its method. -/
def left (m behind : Machine) (loc : Loc) : Machine where
  heap := (behind.scope.handles.foldl Heap.release behind.heap).release (.own loc)
  scope := m.scope
  sink := behind.sink
  depth := behind.depth - 1

end Machine

/-- Names are given values in turn, so of several values for a name the last one stays. -/
theorem Run.assignAll_ok (names : List String) (xs : List Handle) (m : Machine) :
    ∃ m', assignAll names xs m = (.ok (), m') ∧ m'.sink = m.sink ∧ m'.depth = m.depth ∧
      ∀ name, m'.scope.get? name =
        ((names.zip xs).reverse.lookup name).or (m.scope.get? name) := by
  induction names generalizing xs m with
  | nil => exact ⟨m, rfl, rfl, rfl, fun _ => rfl⟩
  | cons name names ih =>
    cases xs with
    | nil => exact ⟨m, rfl, rfl, rfl, fun _ => rfl⟩
    | cons x xs =>
      obtain ⟨m', hrun, hsink, hdepth, hscope⟩ := ih xs (assign name x m).2
      refine ⟨m', (bind_of_ok rfl).trans hrun, hsink, hdepth, fun other => ?_⟩
      have hset : (m.scope.set name x).get? other =
          ([(name, x)].lookup other).or (m.scope.get? other) := by
        rw [List.lookup_cons]
        by_cases hname : other = name
        · simp [hname]
        · rw [Bindings.get?_set_of_ne _ hname, beq_false_of_ne hname]
          rfl
      calc m'.scope.get? other
        _ = ((names.zip xs).reverse.lookup other).or ((m.scope.set name x).get? other) :=
          hscope other
        _ = (((name :: names).zip (x :: xs)).reverse.lookup other).or (m.scope.get? other) := by
          rw [hset, ← Option.or_assoc, ← List.lookup_append, List.zip_cons_cons, List.reverse_cons]

namespace Guest

/-- A call is answered on an instance of a class: by a fault if there are as many calls under way as
the limit allows, and otherwise by the method that the class runs for the name. -/
def Answers (limit n : Nat) (c : Class) (x : Handle) (name : String) (args : List Handle)
    (line : Nat) (m : Machine) : Prop :=
  let r := (within limit (n + 1)).call x name args line m
  ∃ loc fields method, x.loc? = some loc ∧ m.heap.get? loc = some (.inst c fields) ∧
    c.Runs name method ∧ method.params.length = args.length ∧
    (limit ≤ m.depth ∧ r = (.error (.fault ⟨line, .depth limit⟩),
        { m with heap := args.foldl Heap.release m.heap }) ∨
      m.depth < limit ∧ ∃ m', assignAll method.params args (m.entered loc) = (.ok (), m') ∧
        m.Frames m' loc method.params args ∧
        let behind := (do result (← Stmt.execAll (within limit n) method.body)) m'
        r = (behind.1, m.left behind.2 loc))

section

variable {m : Machine} {x : Handle} {loc : Loc} {c : Class} {fields : Bindings} {name : String}
  {args : List Handle}

theorem frames_entered (m : Machine) (loc : Loc) (params : List String) (args : List Handle) :
    ∃ m', assignAll params args (m.entered loc) = (.ok (), m') ∧ m.Frames m' loc params args := by
  obtain ⟨m', hrun, hsink, hdepth, hscope⟩ := assignAll_ok params args (m.entered loc)
  refine ⟨m', hrun, ?_, hsink, hdepth⟩
  intro name
  rw [hscope name, Machine.entered, Bindings.get?, List.lookup_cons]
  by_cases hname : name = selfName
  · rw [if_pos hname, hname, beq_self_eq_true]
  · rw [if_neg hname, beq_false_of_ne hname]
    rfl

/-- What is offered by the class of an instance is answered when it is called. -/
theorem answers_of_accepting (hloc : x.loc? = some loc)
    (hget : m.heap.get? loc = some (.inst c fields))
    (haccepts : (c.accepting? name args.length).isSome = true) (limit n line : Nat) :
    Answers limit n c x name args line m := by
  obtain ⟨method, hmethod⟩ := Option.isSome_iff_exists.1 haccepts
  obtain ⟨hruns, harity⟩ := Class.accepting?_eq_some_iff.1 hmethod
  have hdispatch := Machine.dispatch_of_accepting hloc hget hmethod limit
  have hcall : (within limit (n + 1)).call x name args line m =
      around limit (within limit n).body x name args line m := rfl
  refine ⟨loc, fields, method, hloc, hget, hruns, harity, ?_⟩
  by_cases hdepth : limit ≤ m.depth
  · rw [if_pos hdepth] at hdispatch
    exact Or.inl ⟨hdepth, hcall.trans (around_of_error hdispatch)⟩
  · rw [if_neg hdepth] at hdispatch
    obtain ⟨m', hassign, hframes⟩ := frames_entered m loc method.params args
    refine Or.inr ⟨Nat.lt_of_not_le hdepth, m', hassign, hframes, ?_⟩
    have hbody : (within limit n).body method args (m.entered loc) =
        (do result (← Stmt.execAll (within limit n) method.body)) m' := bind_of_ok hassign
    rw [hcall, around_of_ok hdispatch, enter_apply, ← hbody]
    rfl

end

end Guest

/-- What is offered by a value is offered by the class of an instance. -/
theorem Heap.inst_of_accepting {h : Heap} {x : Handle} {name : String} {arity : Nat}
    (ha : (h.accepting? x name arity).isSome = true) :
    ∃ loc c fields, x.loc? = some loc ∧ h.get? loc = some (.inst c fields) ∧
      (c.accepting? name arity).isSome = true := by
  obtain ⟨method, hmethod⟩ := Option.isSome_iff_exists.1 ha
  obtain ⟨object, hobject, hrest⟩ := Option.bind_eq_some_iff.1 hmethod
  obtain ⟨c, hclass, haccepts⟩ := Option.bind_eq_some_iff.1 hrest
  obtain ⟨loc, hloc, hget⟩ := Option.bind_eq_some_iff.1 hobject
  cases object with
  | inst k fields =>
    cases hclass
    exact ⟨loc, c, fields, hloc, hget, Option.isSome_iff_exists.2 ⟨method, haccepts⟩⟩
  | _ => cases hclass

/-- The sum of two values that no method adds: texts are joined, numbers are added if a word holds
the sum, and anything else is refused. -/
inductive Heap.PlainSum (h : Heap) (x y : Handle) : Except Fault.Cause Object → Prop
  | texts {a b : String} (hx : h.object? x = some (.text a)) (hy : h.object? y = some (.text b)) :
      PlainSum h x y (.ok (.text (a ++ b)))
  | numbers {a b c : Number} (hx : h.object? x = some (.number a))
      (hy : h.object? y = some (.number b)) (hc : c.toInt = a.toInt + b.toInt) :
      PlainSum h x y (.ok (.number c))
  | overflow {a b : Number} (hx : h.object? x = some (.number a))
      (hy : h.object? y = some (.number b)) (hsum : ¬ Number.Fits (a.toInt + b.toInt)) :
      PlainSum h x y (.error (.overflow .add))
  | mismatch
      (htexts : ∀ a b, h.object? x = some (.text a) → h.object? y ≠ some (.text b))
      (hnumbers : ∀ a b, h.object? x = some (.number a) → h.object? y ≠ some (.number b)) :
      PlainSum h x y (.error (.operands .add (h.kind x) (h.kind y)))

theorem ArithOp.onValues_plainSum (h : Heap) (x y : Handle) :
    h.PlainSum x y (ArithOp.add.onValues h x y) := by
  rw [onValues.eq_def]
  split
  · next hx hy => exact .texts hx hy
  · next op a b hx hy =>
    rcases onNumbers_cases .add a b with ⟨c, hc, hvalue, -⟩ | ⟨hdiv, -⟩ | ⟨-, hfits, hc⟩
    · rw [hc]
      exact .numbers hx hy hvalue
    · cases hdiv
    · rw [hc]
      exact .overflow hx hy hfits
  · next hnumbers htexts =>
    refine .mismatch ?_ ?_
    · intro a b hx hy
      exact htexts a b rfl hx hy
    · intro a b hx hy
      exact hnumbers a b hx hy

namespace Run

variable {g : Guest} {x y : Handle} {m : Machine} {line : Nat}

/-- A sum that the left operand offers is asked of it. -/
theorem sum_of_left (hx : (m.heap.accepting? x addName 1).isSome = true) :
    arithmetic g .add x y line m = holding x (g.call x addName [y] line) m := by
  rw [arithmetic, ask_bind, hx]
  rfl

/-- A sum that only the right operand offers is asked of that one. -/
theorem sum_of_right (hx : m.heap.accepting? x addName 1 = none)
    (hy : (m.heap.accepting? y addName 1).isSome = true) :
    arithmetic g .add x y line m = holding y (g.call y addName [x] line) m := by
  rw [arithmetic, ask_bind, hx]
  simp only [Option.isSome_none, Bool.and_false, Bool.false_eq_true, if_false]
  rw [ask_bind, hy]
  rfl

end Run

/-- The class that is asked for the text of a value: that of an instance, or the value itself. -/
def Heap.textClass? (h : Heap) (x : Handle) : Option Class :=
  match h.object? x with
  | some (.inst c _) | some (.cls c) => some c
  | _ => none

namespace Guest

variable {g : Guest} {x : Handle} {m : Machine} {line : Nat} {loc : Loc} {c : Class}

/-- The text of an instance that offers it is that of what its method gives. -/
theorem text_of_inst {fields : Bindings} (hloc : x.loc? = some loc)
    (hget : m.heap.get? loc = some (.inst c fields))
    (haccepts : (c.accepting? textName 0).isSome = true) :
    g.text x line m = holding (.own loc) (g.textOf x line)
      { m with heap := m.heap.retain (.own loc) } := by
  have hspeaker : speaker x m.heap = .ok loc := by
    rw [speaker, hloc, Heap.object?_eq_get? hloc, hget]
    exact if_pos haccepts
  rw [text_eq_seize, seize_of_ok hspeaker, retain_bind]

/-- The text of a class that offers it is that of a new instance. -/
theorem text_of_cls (hloc : x.loc? = some loc) (hget : m.heap.get? loc = some (.cls c))
    (haccepts : (c.accepting? textName 0).isSome = true) :
    g.text x line m = holding (.own m.heap.size) (g.textOf (.own m.heap.size) line)
      { m with heap := (m.heap.allocInstance c).2 } := by
  have hspeaker : speaker x m.heap = .error (some (.cls c)) := by
    rw [speaker, hloc, Heap.object?_eq_get? hloc, hget]
  have hfresh : freshInstance c m =
      (.ok (.own m.heap.size), { m with heap := (m.heap.allocInstance c).2 }) := rfl
  rw [text_eq_seize, seize_of_error hspeaker, hloc, otherText, if_pos haccepts,
    bind_of_ok hfresh]

/-- The text of a value whose class does not offer it is its plain one. -/
theorem text_plain (hrefuses : ∀ c, m.heap.textClass? x = some c → c.accepting? textName 0 = none)
    (g : Guest) (line : Nat) :
    g.text x line m = (.ok ((m.heap.plainText? x).getD absentText), m) := by
  rw [Heap.textClass?] at hrefuses
  rw [text, ask_bind, Heap.plainText?]
  cases hloc : x.loc? with
  | none =>
    cases m.heap.object? x <;> rfl
  | some loc =>
    rw [Heap.object?_eq_get? hloc] at hrefuses ⊢
    cases hget : m.heap.get? loc with
    | none =>
      simp [hget]
      rfl
    | some object =>
      rw [hget] at hrefuses
      cases object with
      | inst c fields =>
        simp [hget, hrefuses c rfl]
        rfl
      | cls c =>
        simp [hget, hrefuses c rfl]
        rfl
      | _ =>
        simp [hget]
        rfl

end Guest

namespace Expr

variable {g : Guest} {cls : Class} {args : List Expr} {pos : Position} {m m' : Machine}
  {xs : List Handle}

/-- A new instance whose class offers to prepare it with the arguments is kept while that is done.
-/
theorem eval_construct_of_accepting
    (hargs : Expr.evalAll g args { m with heap := (m.heap.allocInstance cls).2 } = (.ok xs, m'))
    (haccepts : (cls.accepting? initName xs.length).isSome = true) :
    (construct cls args pos).eval g m = keeping (.own m.heap.size)
      (do release (← g.call (.own m.heap.size) initName xs pos.line)
          return .own m.heap.size) m' := by
  have hfresh : freshInstance cls m =
      (.ok (.own m.heap.size), { m with heap := (m.heap.allocInstance cls).2 }) := rfl
  rw [eval, bind_of_ok hfresh, keeping, keeping, bind_of_ok hargs, if_pos haccepts]

/-- Otherwise the arguments are let go of, and nothing is done with the instance. -/
theorem eval_construct_plain
    (hargs : Expr.evalAll g args { m with heap := (m.heap.allocInstance cls).2 } = (.ok xs, m'))
    (hrefuses : cls.accepting? initName xs.length = .none) :
    (construct cls args pos).eval g m =
      (.ok (.own m.heap.size), { m' with heap := xs.foldl Heap.release m'.heap }) := by
  have hfresh : freshInstance cls m =
      (.ok (.own m.heap.size), { m with heap := (m.heap.allocInstance cls).2 }) := rfl
  rw [eval, bind_of_ok hfresh, keeping, bind_of_ok hargs, hrefuses]
  rfl

/-- A new instance is still one of its class when the arguments have been evaluated, and when they
have been let go of again. -/
theorem construct_keeps_inst {limit n : Nat} {held : Multiset Handle} (hs : m.Settled held)
    (hargs : Expr.evalAll (.within limit n) args
      { m with heap := (m.heap.allocInstance cls).2 } = (.ok xs, m')) :
    (∃ fields, m'.heap.get? m.heap.size = some (.inst cls fields)) ∧
      ∃ fields, (xs.foldl Heap.release m'.heap).get? m.heap.size = some (.inst cls fields) := by
  have hstart : Machine.Settled { m with heap := (m.heap.allocInstance cls).2 }
      ((Handle.own m.heap.size).held + held) :=
    Run.Accounts.freshInstance cls held m (by rwa [zero_add])
  obtain ⟨hsettled, points, hlives⟩ := Expr.lives_of_evalAll hstart hargs
  have hinst : (m.heap.allocInstance cls).2.get? m.heap.size =
      some (.inst cls ⟨[(selfName, .share m.heap.size)]⟩) := by
    rw [Heap.allocInstance, Heap.get?_alloc, if_pos rfl]
  obtain ⟨fields, hget⟩ := hsettled.keeps_inst (by simp [Handle.held]) hlives hinst
  have hreleased : Machine.Settled { m' with heap := xs.foldl Heap.release m'.heap }
      (0 + ((Handle.own m.heap.size).held + held)) :=
    Run.Accounts.releaseAll xs _ m' hsettled
  have hlasts : m'.heap.Lives (fun _ _ => False) (xs.foldl Heap.release m'.heap) :=
    .releaseAll m'.heap xs
  exact ⟨⟨fields, hget⟩, hreleased.keeps_inst (by simp [Handle.held]) hlasts hget⟩

end Expr

/-- Calls that are not named in the program never misfire. Where the left operand of a sum offers to
add, or else the right one, where an instance or a class offers a text, and where a class offers to
prepare a new instance with as many arguments as there are, the call that is made is answered: the
limit is reached, or the last definition of the name in the nearest class that has one is run, in a
frame of the instance and the parameters. Where none offers it, the result is the plain one,
whatever a guest would do: the sum of texts or numbers, the plain text, the instance as it is. -/
theorem Guest.offers_answered (limit n : Nat) :
    (∀ x y line m, (m.heap.accepting? x addName 1).isSome = true →
      arithmetic (within limit (n + 1)) .add x y line m =
        holding x ((within limit (n + 1)).call x addName [y] line) m ∧
      ∃ c, Answers limit n c x addName [y] line m) ∧
    (∀ x y line m, m.heap.accepting? x addName 1 = none →
      (m.heap.accepting? y addName 1).isSome = true →
      arithmetic (within limit (n + 1)) .add x y line m =
        holding y ((within limit (n + 1)).call y addName [x] line) m ∧
      ∃ c, Answers limit n c y addName [x] line m) ∧
    (∀ g x y line m, m.heap.accepting? x addName 1 = none →
      m.heap.accepting? y addName 1 = none →
      ∃ r, m.heap.PlainSum x y r ∧
        arithmetic g .add x y line m = holding x (holding y (settle line r >>= fresh)) m) ∧
    (∀ x loc c fields line m, x.loc? = some loc → m.heap.get? loc = some (.inst c fields) →
      (c.accepting? textName 0).isSome = true →
      let m' : Machine := { m with heap := m.heap.retain (.own loc) }
      (within limit (n + 1)).text x line m =
        holding (.own loc) ((within limit (n + 1)).textOf x line) m' ∧
      Answers limit n c x textName [] line m') ∧
    (∀ x loc c line m, x.loc? = some loc → m.heap.get? loc = some (.cls c) →
      (c.accepting? textName 0).isSome = true →
      let y := Handle.own m.heap.size
      let m' : Machine := { m with heap := (m.heap.allocInstance c).2 }
      (within limit (n + 1)).text x line m =
        holding y ((within limit (n + 1)).textOf y line) m' ∧
      Answers limit n c y textName [] line m') ∧
    (∀ g x line m, (∀ c, m.heap.textClass? x = some c → c.accepting? textName 0 = none) →
      Guest.text g x line m = (.ok ((m.heap.plainText? x).getD absentText), m)) ∧
    (∀ cls args pos m held xs m', m.Settled held →
      Expr.evalAll (within limit (n + 1)) args { m with heap := (m.heap.allocInstance cls).2 } =
        (.ok xs, m') →
      (cls.accepting? initName xs.length).isSome = true →
      let x := Handle.own m.heap.size
      (Expr.construct cls args pos).eval (within limit (n + 1)) m =
        keeping x (do
          release (← (within limit (n + 1)).call x initName xs pos.line)
          return x) m' ∧
      Answers limit n cls x initName xs pos.line m') ∧
    ∀ g cls args pos m xs m',
      Expr.evalAll g args { m with heap := (m.heap.allocInstance cls).2 } = (.ok xs, m') →
      cls.accepting? initName xs.length = none →
      let behind : Machine := { m' with heap := xs.foldl Heap.release m'.heap }
      (Expr.construct cls args pos).eval g m = (.ok (.own m.heap.size), behind) ∧
      ∀ held, m.Settled held → g = within limit (n + 1) →
        ∃ fields, behind.heap.get? m.heap.size = some (.inst cls fields) := by
  refine ⟨?_, ?_, ?_, ?_, ?_, ?_, ?_, ?_⟩
  · intro x y line m hx
    obtain ⟨loc, c, fields, hloc, hget, haccepts⟩ := Heap.inst_of_accepting hx
    exact ⟨sum_of_left hx, c, answers_of_accepting hloc hget haccepts limit n line⟩
  · intro x y line m hx hy
    obtain ⟨loc, c, fields, hloc, hget, haccepts⟩ := Heap.inst_of_accepting hy
    exact ⟨sum_of_right hx hy, c, answers_of_accepting hloc hget haccepts limit n line⟩
  · intro g x y line m hx hy
    refine ⟨_, ArithOp.onValues_plainSum m.heap x y, ?_⟩
    rw [arithmetic_plain (fun _ => hx) fun _ => hy]
    rfl
  · intro x loc c fields line m hloc hget haccepts m'
    have hkept : m'.heap.get? loc = some (.inst c fields) := (Heap.get?_retain _ _ _).trans hget
    exact ⟨text_of_inst hloc hget haccepts, answers_of_accepting hloc hkept haccepts limit n line⟩
  · intro x loc c line m hloc hget haccepts y m'
    have hnew : m'.heap.get? m.heap.size =
        some (.inst c ⟨[(selfName, .share m.heap.size)]⟩) := by
      show (m.heap.allocInstance c).2.get? m.heap.size = _
      rw [Heap.allocInstance, Heap.get?_alloc, if_pos rfl]
    exact ⟨text_of_cls hloc hget haccepts, answers_of_accepting rfl hnew haccepts limit n line⟩
  · intro g x line m hrefuses
    exact text_plain hrefuses g line
  · intro cls args pos m held xs m' hs hargs haccepts x
    obtain ⟨⟨fields, hinst⟩, -⟩ := Expr.construct_keeps_inst hs hargs
    exact ⟨Expr.eval_construct_of_accepting hargs haccepts,
      answers_of_accepting rfl hinst haccepts limit n pos.line⟩
  · intro g cls args pos m xs m' hargs hrefuses behind
    refine ⟨Expr.eval_construct_plain hargs hrefuses, ?_⟩
    rintro held hs rfl
    exact (Expr.construct_keeps_inst hs hargs).2

/-- A class that offers a sum, a text and a preparation. The sum is defined twice, and a parameter
of the last definition hides the instance. -/
def Class.offering : Class :=
  ⟨"Offer", [⟨addName, ["x"], []⟩, ⟨addName, [selfName], [.ret (some (.path selfName [] .start))
    .start]⟩, ⟨textName, [], []⟩, ⟨initName, ["a", "a"], []⟩], none⟩

/-- A state with that class and an instance of it. -/
def Machine.offering : Machine :=
  { start .endless with
    heap := ((Heap.empty.alloc (.cls .offering)).2.allocInstance .offering).2 }

/-- The instance, by a handle that only shares it, on either side of a sum and as a text; the class
as a text; a new instance. What the class does not offer is plain. -/
theorem Guest.offers_answered_offering :
    (∃ c, Answers 10 0 c (.share 1) addName [.absent] 1 .offering) ∧
    (∃ c, Answers 0 0 c (.share 1) addName [.absent] 1 .offering) ∧
    (∃ r, Machine.offering.heap.PlainSum .absent .absent r) ∧
    Answers 10 0 .offering (.share 1) textName [] 1
      { Machine.offering with heap := Machine.offering.heap.retain (.own 1) } ∧
    Answers 10 0 .offering (.own 2) textName [] 1
      { Machine.offering with heap := (Machine.offering.heap.allocInstance .offering).2 } ∧
    (Guest.text (within 10 1) .absent 1 .offering).1 = .ok absentText ∧
    Answers 10 0 .offering (.own 0) initName [.absent, .absent] 1
      { Machine.start .endless with heap := (Heap.empty.allocInstance .offering).2 } ∧
    ((Expr.construct .offering [] .start).eval (within 10 1) (.start .endless)).1 =
      .ok (.own 0) := by
  obtain ⟨hleft, -, hplain, hinst, hcls, htext, hinit, hbare⟩ := offers_answered 10 0
  obtain ⟨-, hright, -⟩ := offers_answered 0 0
  refine ⟨(hleft (.share 1) .absent 1 .offering rfl).2,
    (hright .absent (.share 1) 1 .offering rfl rfl).2, ?_, ?_, ?_, ?_, ?_, ?_⟩
  · obtain ⟨r, hr, -⟩ := hplain (within 10 1) .absent .absent 1 .offering rfl rfl
    exact ⟨r, hr⟩
  · exact (hinst (.share 1) 1 .offering _ 1 .offering rfl rfl rfl).2
  · exact (hcls (.own 0) 0 .offering 1 .offering rfl rfl rfl).2
  · rw [htext (within 10 1) .absent 1 .offering (by rintro c ⟨⟩)]
    rfl
  · exact (hinit .offering [.none .start, .none .start] .start (.start .endless) 0 _ _
      Heap.settled_empty rfl rfl).2
  · rw [(hbare (within 10 1) .offering [] .start (.start .endless) _ _ rfl rfl).1]
    rfl

end Mython
