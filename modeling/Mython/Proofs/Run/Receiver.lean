import Mython.Proofs.Session.Discipline

namespace Mython

open Run

/-- All code and all places. It says nothing about a run, and covers every state. -/
def Realm.everything (depth : Nat) : Realm where
  code _ := True
  closed _ _ := trivial
  places _ := True
  base := 0
  new _ _ := trivial
  depth := depth

theorem Realm.everything_admits (depth : Nat) (x : Handle) : (everything depth).Admits x :=
  fun _ _ => trivial

theorem Realm.everything_covers (m : Machine) : (everything m.depth).Covers m := by
  refine ⟨⟨Nat.zero_le _, ?_⟩, fun x _ => everything_admits m.depth x, rfl⟩
  intro loc object _ _
  cases object with
  | inst c fields => exact ⟨trivial, fun x _ => everything_admits m.depth x⟩
  | _ => trivial

/-- An instance goes, or stays one of the same class. -/
theorem Heap.Lives.inst {changed : Loc → String → Prop} {h h' : Heap} (hl : h.Lives changed h')
    {loc : Loc} {c : Class} {fields : Bindings} (hget : h.get? loc = some (.inst c fields)) :
    h'.get? loc = none ∨ ∃ fields', h'.get? loc = some (.inst c fields') := by
  cases hget' : h'.get? loc with
  | none => exact Or.inl rfl
  | some object' =>
    obtain ⟨object, hobject, hlives⟩ := hl.old loc object' (Heap.lt_size_of_get? hget) hget'
    rw [hget] at hobject
    cases hobject
    cases object' with
    | inst c' fields' =>
      obtain ⟨rfl, -⟩ := hlives
      exact Or.inr ⟨fields', rfl⟩
    | _ => cases hlives

/-- An instance that is owned by what is held stays, and stays one of the same class. -/
theorem Machine.Settled.keeps_inst {m : Machine} {held : Multiset Handle} {loc : Loc}
    (hs : m.Settled held) (hheld : .own loc ∈ held) {h : Heap} {changed : Loc → String → Prop}
    (hl : h.Lives changed m.heap) {c : Class} {fields : Bindings}
    (hget : h.get? loc = some (.inst c fields)) :
    ∃ fields', m.heap.get? loc = some (.inst c fields') := by
  have husable := Heap.Settled.usable_of_mem hs (Multiset.mem_add.2 (Or.inr hheld))
  have hlive := husable.live loc rfl
  rcases hl.inst hget with hnone | hinst
  · rw [hnone] at hlive
    cases hlive
  · exact hinst

namespace Machine

variable {m : Machine} {x : Handle} {loc : Loc} {c : Class} {fields : Bindings}

/-- A call on an instance that is there is made on it, or refused for another reason. -/
theorem dispatch_of_inst (hloc : x.loc? = some loc)
    (hget : m.heap.get? loc = some (.inst c fields)) (limit : Nat) (name : String) (args : Nat) :
    (∃ method, m.dispatch limit x name args = .ok (loc, method)) ∨
      ∃ cause, (∀ what, cause ≠ .notInstance what) ∧
        m.dispatch limit x name args = .error cause := by
  have hobject := Heap.object?_eq_get? (h := m.heap) hloc
  simp only [dispatch, hobject, hget, hloc]
  cases c.method? name with
  | none => exact Or.inr ⟨.noMethod c.name name, by rintro _ ⟨⟩, rfl⟩
  | some method =>
    by_cases harity : method.arity ≠ args
    · exact Or.inr ⟨.arity name method.arity args, by rintro _ ⟨⟩, if_pos harity⟩
    · by_cases hdepth : limit ≤ m.depth
      · exact Or.inr ⟨.depth limit, by rintro _ ⟨⟩, by simp only [if_neg harity, if_pos hdepth]⟩
      · exact Or.inl ⟨method, by simp only [if_neg harity, if_neg hdepth]⟩

theorem dispatch_of_gone (hloc : x.loc? = some loc) (hget : m.heap.get? loc = none) (limit : Nat)
    (name : String) (args : Nat) :
    m.dispatch limit x name args = .error (.notInstance absentText) := by
  have hobject := Heap.object?_eq_get? (h := m.heap) hloc
  simp only [dispatch, hobject, hget, hloc]

end Machine

/-- Once the object of a call has been evaluated to an instance, and its arguments to values, what
is left is the request. -/
theorem Expr.eval_call_of_args {g : Guest} {object : Expr} {args : List Expr} {m m₁ m₂ : Machine}
    {x : Handle} {xs : List Handle} (hx : object.eval g m = (.ok x, m₁))
    (hinst : m₁.heap.isInstance x = true) (hargs : Expr.evalAll g args m₁ = (.ok xs, m₂))
    (method : String) (pos : Position) :
    (Expr.call object method args pos).eval g m = holding x (g.call x method xs pos.line) m₂ := by
  have hrest : (do
      if ← ask fun h => h.isInstance x then
        g.call x method (← Expr.evalAll g args) pos.line
      else
        raise pos.line (.notInstance object.describe) : Run Handle) m₁ =
      g.call x method xs pos.line m₂ := by
    rw [ask_bind, hinst, if_pos rfl, bind_of_ok hargs]
  rw [Expr.eval, bind_of_ok hx, Run.holding, Run.holding, hrest]

/-- What holds when the arguments of a call have been evaluated: the account, and the instance is
of its class if it is still there. -/
theorem Expr.lives_of_evalAll {limit fuel : Nat} {args : List Expr} {m m' : Machine}
    {xs : List Handle} {held : Multiset Handle} (hs : m.Settled held)
    (hargs : Expr.evalAll (.within limit fuel) args m = (.ok xs, m')) :
    m'.Settled (Handle.heldAll xs + held) ∧
      ∃ points, m.heap.Lives (Point.Assigned points) m'.heap := by
  have hstart : m.Settled (0 + held) := by rwa [zero_add]
  have hsettled := (Expr.scriptAll args).accounts (Guest.within_accounted limit fuel) held m hstart
  have htraced := (Expr.scriptAll args).traced
    (Guest.within_traced (Realm.everything m.depth) limit fuel)
    (Expr.madeAll args (fun _ _ => trivial) m) (Realm.everything_covers m)
    (Realm.admitsAll_zero _) hstart
  rw [hargs] at hsettled htraced
  exact ⟨hsettled, _, Traces.lives htraced⟩

/-- A call whose receiver was an instance before its arguments were evaluated, and whose arguments
have all been evaluated. If the value of its object owns the instance, the instance is still there.
If it is there, it is one of the same class, and the call is made on it or refused for a reason that
is not about the receiver. Otherwise the call is refused for an absent receiver. -/
theorem Guest.call_by_receiver {object : Expr} {args : List Expr} {limit n : Nat}
    {m m₁ m₂ : Machine} {x : Handle} {loc : Loc} {c : Class} {fields : Bindings}
    {xs : List Handle} {rest : Multiset Handle} (hs : m.Settled rest)
    (hx : object.eval (.within limit (n + 1)) m = (.ok x, m₁)) (hloc : x.loc? = some loc)
    (hinst : m₁.heap.get? loc = some (.inst c fields))
    (hargs : Expr.evalAll (.within limit (n + 1)) args m₁ = (.ok xs, m₂)) (method : String)
    (pos : Position) :
    let r := (Expr.call object method args pos).eval (.within limit (n + 1)) m
    (x = .own loc → (m₂.heap.get? loc).isSome = true) ∧
    (m₂.heap.get? loc = none → r.1 = .error (.fault ⟨pos.line, .notInstance absentText⟩)) ∧
    ((m₂.heap.get? loc).isSome = true →
      (∃ fields', m₂.heap.get? loc = some (.inst c fields')) ∧
      ((∃ found, m₂.dispatch limit x method xs.length = .ok (loc, found) ∧
          r = holding x (Guest.enter loc ((Guest.within limit n).body found xs)) m₂) ∨
        ∃ cause, (∀ what, cause ≠ .notInstance what) ∧
          m₂.dispatch limit x method xs.length = .error cause ∧
          r.1 = .error (.fault ⟨pos.line, cause⟩))) := by
  intro r
  have hsettled₁ : m₁.Settled (x.held + rest) := by
    have hobject := object.script.accounts (Guest.within_accounted limit (n + 1)) rest m
      (by rwa [zero_add])
    rw [hx] at hobject
    exact hobject
  obtain ⟨hsettled₂, points, hlives⟩ := Expr.lives_of_evalAll hsettled₁ hargs
  have hcheck : m₁.heap.isInstance x = true := by
    rw [Heap.isInstance, Heap.kind, Heap.object?_eq_get? hloc, hinst]
    rfl
  have hrun : r = holding x (Guest.around limit (Guest.within limit n).body x method xs pos.line)
      m₂ := Expr.eval_call_of_args hx hcheck hargs method pos
  refine ⟨?_, ?_, ?_⟩
  · rintro rfl
    have hheld : Handle.own loc ∈ Handle.heldAll xs + ((Handle.own loc).held + rest) := by
      simp [Handle.held]
    obtain ⟨fields', hget⟩ := hsettled₂.keeps_inst hheld hlives hinst
    rw [hget]
    rfl
  · intro hgone
    rw [hrun, Run.holding, Guest.around_of_error (Machine.dispatch_of_gone hloc hgone _ _ _)]
  · intro hthere
    rcases hlives.inst hinst with hgone | ⟨fields', hget⟩
    · rw [hgone] at hthere
      cases hthere
    refine ⟨⟨fields', hget⟩, ?_⟩
    rcases Machine.dispatch_of_inst hloc hget limit method xs.length with
      ⟨found, hd⟩ | ⟨cause, hcause, hd⟩
    · refine Or.inl ⟨found, hd, ?_⟩
      rw [hrun, Run.holding, Run.holding, Guest.around_of_ok hd]
    · refine Or.inr ⟨cause, hcause, hd, ?_⟩
      rw [hrun, Run.holding, Guest.around_of_error hd]

/-- A program after which an instance is owned by one field alone. The owner of the field can drop
it, and a method of the instance can take it from there and then forget it as `self` too. -/
def Program.soleOwner : Program :=
  let leave : Method := ⟨"leave", ["h"],
    [.assignField (.path "h" [] .start) "x" (.none .start) .start,
      .assign selfName (.none .start) .start]⟩
  let drop : Method :=
    ⟨"drop", [], [.assignField (.path selfName [] .start) "x" (.none .start) .start]⟩
  ⟨[.assign "h" (.construct ⟨"H", [drop], none⟩ [] .start) .start,
    .assignField (.path "h" [] .start) "x" (.construct ⟨"A", [leave], none⟩ [] .start) .start]⟩

/-- The state behind that program. -/
@[irreducible]
def Machine.soleOwner : Machine := (Program.soleOwner.exec (.within 10 6) (start .endless)).2

theorem Machine.soleOwner_settled : soleOwner.Settled 0 := by
  have hends : (Program.soleOwner.exec (.within 10 6) (start .endless)).1 = .ok () := by
    decide +kernel
  have hreached := Program.soleOwner.reaches 10 6 (start .endless) (by
    rw [hends]
    rintro ⟨⟩)
  rw [soleOwner]
  exact hreached.settled (start_settled .endless)

/-- An argument that takes the instance from the field. -/
def Expr.drop : Expr := .call (.path "h" [] .start) "drop" [] .start

/-- A call on the instance, found by a row of fields, with that argument. -/
def Expr.callDropping (fields : List String) : Expr :=
  .call (.path "h" fields .start) "leave" [drop] .start

/-- What is left of a run is its answer and the state that it leaves. -/
theorem Run.eq_of_answer {f : Run α} {m : Machine} {r : Except Halt α} (h : (f m).1 = r) :
    f m = (r, (f m).2) := Prod.ext h rfl

/-- The field of the instance answers with a handle that shares the instance. -/
theorem Machine.soleOwner_shared :
    ((Expr.path "h" ["x", "self"] .start).eval (.within 10 6) soleOwner).1 = .ok (.share 1) := by
  decide +kernel

/-- The argument is evaluated behind that handle. -/
theorem Machine.soleOwner_dropping :
    (Expr.evalAll (.within 10 6) [.drop]
      ((Expr.path "h" ["x", "self"] .start).eval (.within 10 6) soleOwner).2).1 =
        .ok [.absent] := by
  decide +kernel

/-- A receiver that was there when it was looked at, and arguments that were all evaluated, do not
make a call: this one is refused for an absent receiver, because its argument drops the only owner
of the instance. -/
theorem Guest.receiver_lost_to_argument :
    ∃ x m₁ xs m₂,
      (Expr.path "h" ["x", "self"] .start).eval (.within 10 6) .soleOwner = (.ok x, m₁) ∧
      m₁.heap.isInstance x = true ∧
      Expr.evalAll (.within 10 6) [.drop] m₁ = (.ok xs, m₂) ∧
      ((Expr.callDropping ["x", "self"]).eval (.within 10 6) .soleOwner).1 =
        .error (.fault ⟨1, .notInstance absentText⟩) :=
  ⟨_, _, _, _, eq_of_answer Machine.soleOwner_shared, by decide +kernel,
    eq_of_answer Machine.soleOwner_dropping, by decide +kernel⟩

/-- By the field itself, which owns the instance, the call finds it; by the field of the instance
that only shares it, the call is refused. -/
theorem Guest.call_by_receiver_soleOwner :
    let owned := (Expr.path "h" ["x"] .start).eval (.within 10 6) .soleOwner
    ((Expr.evalAll (.within 10 6) [.drop] owned.2).2.heap.get? 1).isSome = true ∧
    ((Expr.callDropping ["x", "self"]).eval (.within 10 6) .soleOwner).1 =
      .error (.fault ⟨1, .notInstance absentText⟩) := by
  constructor
  · have hobject : ((Expr.path "h" ["x"] .start).eval (.within 10 6) .soleOwner).1 =
        .ok (.own 1) := by decide +kernel
    have hat : instanceAt (.own 1)
        ((Expr.path "h" ["x"] .start).eval (.within 10 6) .soleOwner).2.heap = .ok 1 := by
      decide +kernel
    have hargs : (Expr.evalAll (.within 10 6) [.drop]
        ((Expr.path "h" ["x"] .start).eval (.within 10 6) .soleOwner).2).1 = .ok [.absent] := by
      decide +kernel
    obtain ⟨c, fields, hinst⟩ := instanceAt_ok hat
    have hcall := call_by_receiver (n := 5) Machine.soleOwner_settled (eq_of_answer hobject) rfl
      hinst (eq_of_answer hargs) "leave" .start
    exact hcall.1 rfl
  · have hat : instanceAt (.share 1)
        ((Expr.path "h" ["x", "self"] .start).eval (.within 10 6) .soleOwner).2.heap = .ok 1 := by
      decide +kernel
    have hgone : ((Expr.evalAll (.within 10 6) [.drop]
        ((Expr.path "h" ["x", "self"] .start).eval (.within 10 6) .soleOwner).2).2.heap.get? 1) =
          none := by
      rw [← Option.isNone_iff_eq_none]
      decide +kernel
    obtain ⟨c, fields, hinst⟩ := instanceAt_ok hat
    have hcall := call_by_receiver (n := 5) Machine.soleOwner_settled
      (eq_of_answer Machine.soleOwner_shared) rfl hinst (eq_of_answer Machine.soleOwner_dropping)
      "leave" .start
    exact hcall.2.1 hgone

theorem Run.le_held_of_ending {q : α → Multiset Handle} {rest : Multiset Handle}
    {r : Except Halt α × Machine} {p : Point} (hp : p ∈ ending q rest r) : rest ≤ p.held := by
  rcases r with ⟨(fault | _) | a, m⟩
  · obtain rfl := List.mem_singleton.1 hp
    exact le_rfl
  · cases hp
  · obtain rfl := List.mem_singleton.1 hp
    exact Multiset.le_add_left _ _

/-- Courses of requests in which what is held in front of a request is held all the time. -/
structure Guest.Courses.Hold (requests : Courses) : Prop where
  call : ∀ x name args line rest m, ∀ p ∈ requests.call x name args line rest m, rest ≤ p.held
  render : ∀ x line rest m, ∀ p ∈ requests.render x line rest m, rest ≤ p.held

/-- What is held besides in front of a script is held at every point of its course. -/
theorem Script.le_held {g : Guest} {requests : Guest.Courses} (hr : requests.Hold)
    {p : Multiset Handle} {f : Guest → Run α} {q : α → Multiset Handle} (h : Script p f q)
    {rest : Multiset Handle} {m : Machine} {point : Point}
    (hp : point ∈ h.course g requests rest m) : rest ≤ point.held := by
  -- By induction on the script; inside of a part that holds something more, more is held.
  induction h generalizing rest m with
  | step h => exact le_held_of_ending hp
  | frame aside h hf => exact le_held_of_ending hp
  | @bind _ _ _ f _ _ _ h hk ih ihk =>
    rw [course] at hp
    rcases List.mem_append.1 hp with hp | hp
    · exact ih hp
    · rcases hf : f g m with ⟨e | a, m'⟩
      · rw [hf] at hp
        cases hp
      · rw [hf] at hp
        exact ihk a hp
  | holding x h ih =>
    rcases List.mem_append.1 hp with hp | hp
    · exact (Multiset.le_add_left rest x.held).trans (ih hp)
    · exact le_held_of_ending hp
  | keeping x h ih =>
    rcases List.mem_append.1 hp with hp | hp
    · exact (Multiset.le_add_left rest x.held).trans (ih hp)
    · exact le_held_of_ending hp
  | @seize _ _ look _ _ _ _ hb ho ihb iho =>
    rw [course] at hp
    cases hl : look m.heap with
    | error found =>
      rw [hl] at hp
      exact iho found hp
    | ok loc =>
      have hmore := Multiset.le_add_left rest (Handle.own loc).held
      rw [hl] at hp
      rcases List.mem_cons.1 hp with rfl | hp
      · exact hmore
      · rcases List.mem_append.1 hp with hp | hp
        · exact hmore.trans (ihb loc hp)
        · exact le_held_of_ending hp
  | @bestow f x _ field _ h ih =>
    rw [course] at hp
    cases hl : instanceAt x m.heap with
    | error found =>
      rw [hl] at hp
      obtain rfl := List.mem_singleton.1 hp
      exact le_rfl
    | ok loc =>
      have hmore := Multiset.le_add_left rest (Handle.own loc).held
      rw [hl] at hp
      simp only [List.mem_cons, List.mem_append] at hp
      rcases hp with rfl | (hp | hp) | hp
      · exact hmore
      · exact hmore.trans (ih hp)
      · rcases hf : f g { m with heap := m.heap.retain (.own loc) } with ⟨e | y, m'⟩
        · rw [hf] at hp
          cases hp
        · rw [hf] at hp
          obtain rfl := List.mem_singleton.1 hp
          exact hmore.trans (Multiset.le_add_left _ y.held)
      · exact le_held_of_ending hp
  | call x name args line => exact hr.call x name args line rest m point hp
  | render x line => exact hr.render x line rest m point hp
  | conv _ _ _ _ ih => exact ih hp

namespace Guest

/-- What is held while the body of a method is run: the scope around it, and the receiver. -/
def outer (m : Machine) (loc : Loc) (rest : Multiset Handle) : Multiset Handle :=
  Handle.heldAll m.scope.handles + ((Handle.own loc).held + rest)

/-- The points of a call from the start of the body of its method to the end of the body. -/
def bodyCourse (limit n : Nat) (loc : Loc) (method : Method) (args : List Handle)
    (h : method.arity = args.length) (rest : Multiset Handle) (m : Machine) : List Point :=
  ⟨⟨m.entered loc, Handle.heldAll args + outer m loc rest⟩, none⟩ ::
    (bodyScript method args h).course (within limit n) (courseWithin limit n) (outer m loc rest)
      (m.entered loc)

/-- A call that is made has the points of the body of its method, and one more at its end. -/
theorem course_call {limit n : Nat} {x : Handle} {name : String} {args : List Handle} {line : Nat}
    {rest : Multiset Handle} {m : Machine} {loc : Loc} {method : Method}
    (hd : m.dispatch limit x name args.length = .ok (loc, method))
    (harity : method.arity = args.length) :
    (courseWithin limit (n + 1)).call x name args line rest m =
      bodyCourse limit n loc method args harity rest m ++
        ending Handle.held rest ((within limit (n + 1)).call x name args line m) := by
  simp only [courseWithin, hd, harity, dite_true]
  rfl

theorem within_hold (limit n : Nat) : (courseWithin limit n).Hold := by
  induction n with
  | zero => exact ⟨fun _ _ _ _ _ _ _ hp => absurd hp List.not_mem_nil,
      fun _ _ _ _ _ hp => absurd hp List.not_mem_nil⟩
  | succ n ih =>
    constructor
    · intro x name args line rest m p hp
      rcases List.mem_append.1 hp with hp | hp
      · cases hd : m.dispatch limit x name args.length with
        | error cause =>
          rw [hd] at hp
          cases hp
        | ok found =>
          obtain ⟨loc, method⟩ := found
          obtain ⟨-, -, harity, -⟩ := Machine.dispatch_ok hd
          simp only [hd, harity, dite_true] at hp
          have hmore : rest ≤ outer m loc rest :=
            (Multiset.le_add_left rest (Handle.own loc).held).trans (Multiset.le_add_left _ _)
          rcases List.mem_cons.1 hp with rfl | hp
          · exact hmore.trans (Multiset.le_add_left _ (Handle.heldAll args))
          · exact hmore.trans ((bodyScript method args harity).le_held ih hp)
      · exact le_held_of_ending hp
    · intro x line rest m p hp
      exact (textScript x line).le_held ih hp

/-- The receiver is held at every point of the body. -/
theorem own_mem_held {limit n : Nat} {loc : Loc} {method : Method} {args : List Handle}
    {h : method.arity = args.length} {rest : Multiset Handle} {m : Machine} {p : Point}
    (hp : p ∈ bodyCourse limit n loc method args h rest m) : .own loc ∈ p.held := by
  have hown : Handle.own loc ∈ outer m loc rest := by simp [outer, Handle.held]
  rcases List.mem_cons.1 hp with rfl | hp
  · exact Multiset.mem_add.2 (Or.inr hown)
  · exact Multiset.mem_of_le ((bodyScript method args h).le_held (within_hold limit n) hp) hown

end Guest

/-- An instance of a class is at a place, and every handle to the place leads to it. -/
def Machine.Reachable (m : Machine) (loc : Loc) (c : Class) : Prop :=
  ∃ fields, m.heap.get? loc = some (.inst c fields) ∧
    ∀ y : Handle, y.loc? = some loc → m.heap.object? y = some (.inst c fields)

theorem Machine.reachable_iff {m : Machine} {loc : Loc} {c : Class} :
    m.Reachable loc c ↔ ∃ fields, m.heap.get? loc = some (.inst c fields) := by
  constructor
  · rintro ⟨fields, hget, -⟩
    exact ⟨fields, hget⟩
  · rintro ⟨fields, hget⟩
    exact ⟨fields, hget, fun y hy => (Heap.object?_eq_get? hy).trans hget⟩

/-- What is held besides is held in the end too, unless the run is short of fuel. -/
theorem Run.Settles.held {rest : Multiset Handle} {q : α → Multiset Handle}
    {r : Except Halt α × Machine} (h : Settles rest q r) (hr : r.1 ≠ .error .exhausted) :
    ∃ held, rest ≤ held ∧ r.2.Settled held := by
  rcases r with ⟨(fault | _) | a, m⟩
  · exact ⟨rest, le_rfl, h⟩
  · exact absurd rfl hr
  · exact ⟨q a + rest, Multiset.le_add_left _ _, h⟩

/-- The receiver outlives its call. From the start of the body of its method to the end of the body,
however the body ends and whatever is done in it or in calls that it makes, the receiver is there,
an instance of the class that it was of, and every handle to its place leads to it, also one that
only shares it. -/
theorem Guest.receiver_outlives_call {limit n : Nat} {x : Handle} {name : String}
    {args : List Handle} (line : Nat) {rest : Multiset Handle} {m : Machine} {loc : Loc}
    {method : Method} (hs : m.Settled (Handle.heldAll args + rest))
    (hd : m.dispatch limit x name args.length = .ok (loc, method)) :
    ∃ (c : Class) (harity : method.arity = args.length),
      x.loc? = some loc ∧ m.Reachable loc c ∧
      (courseWithin limit (n + 1)).call x name args line rest m =
        bodyCourse limit n loc method args harity rest m ++
          ending Handle.held rest ((within limit (n + 1)).call x name args line m) ∧
      (∀ p ∈ bodyCourse limit n loc method args harity rest m, p.machine.Reachable loc c) ∧
      let r := (within limit n).body method args (m.entered loc)
      r.1 ≠ .error .exhausted → r.2.Reachable loc c := by
  obtain ⟨hloc, ⟨c, fields, hinst⟩, harity, -⟩ := Machine.dispatch_ok hd
  have hstart : (m.entered loc).heap.get? loc = some (.inst c fields) := by
    rw [Machine.entered, Heap.get?_retain, Heap.get?_retain, hinst]
  have hentered : (m.entered loc).Settled (Handle.heldAll args + outer m loc rest) :=
    hs.entered ⟨c, fields, hinst⟩
  have htraced := (bodyScript method args harity).traced
    (within_traced (Realm.everything (m.entered loc).depth) limit n)
    (made_body harity trivial (m.entered loc)) (Realm.everything_covers (m.entered loc))
    (fun y _ => Realm.everything_admits _ y) hentered
  refine ⟨c, harity, hloc, Machine.reachable_iff.2 ⟨fields, hinst⟩, course_call hd harity, ?_, ?_⟩
  · intro p hp
    have hheld := own_mem_held hp
    rw [Machine.reachable_iff]
    rcases List.mem_cons.1 hp with rfl | hp
    · exact ⟨fields, hstart⟩
    obtain ⟨m', htraces⟩ := htraced.somewhere
    obtain ⟨_, hfollows⟩ := htraces.follows hp
    obtain ⟨front, back, hcourse⟩ := List.append_of_mem hp
    rw [hcourse] at htraces
    exact hfollows.settled.keeps_inst hheld htraces.lives_from_start hstart
  · intro r hr
    have hsettles := (bodyScript method args harity).accounts (within_accounted limit n)
      (outer m loc rest) (m.entered loc) hentered
    obtain ⟨held, hle, hsettled⟩ := hsettles.held hr
    have hown : Handle.own loc ∈ held :=
      Multiset.mem_of_le hle (by simp [outer, Handle.held])
    rw [Machine.reachable_iff]
    exact hsettled.keeps_inst hown (htraced.traces hr).lives hstart

/-- The state in front of a call by which an instance leaves the field that owns it: the owner of
the field is held as an argument. -/
def Machine.leaving : Machine := { soleOwner with heap := soleOwner.heap.retain (.own 0) }

/-- The instance is there at every point of a call in which it loses all its other owners, up to the
end of the call, where it is gone. -/
theorem Guest.receiver_outlives_call_leaving :
    ∃ points last,
      (courseWithin 10 6).call (.share 1) "leave" [.own 0] 1 0 .leaving = points ++ [last] ∧
      (∀ p ∈ points, (p.machine.heap.get? 1).isSome = true) ∧
      last.machine.heap.get? 1 = none := by
  have hname : Machine.soleOwner.scope.get? "h" = some (.own 0) := by decide +kernel
  have hsettled : Machine.leaving.Settled (Handle.heldAll [.own 0] + 0) := by
    have husable := Machine.soleOwner_settled.usable_of_scope (Bindings.mem_handles_of_get? hname)
    exact Machine.soleOwner_settled.retain husable
  have hplace : (Machine.leaving.dispatch 10 (.share 1) "leave" 1).toOption.map (·.1) = some 1 := by
    decide +kernel
  obtain ⟨⟨loc, method⟩, hfound, hloc⟩ := Option.map_eq_some_iff.1 hplace
  obtain rfl : loc = 1 := hloc
  have hd : Machine.leaving.dispatch 10 (.share 1) "leave" 1 = .ok (1, method) := by
    rcases hcall : Machine.leaving.dispatch 10 (.share 1) "leave" 1 with cause | found
    · rw [hcall] at hfound
      cases hfound
    · rw [hcall] at hfound
      cases hfound
      rfl
  have hanswer : ((within 10 6).call (.share 1) "leave" [.own 0] 1 .leaving).1 =
      .ok .absent := by decide +kernel
  have hafter : (((within 10 6).call (.share 1) "leave" [.own 0] 1 .leaving).2.heap.get? 1).isNone =
      true := by decide +kernel
  obtain ⟨c, harity, -, -, hcourse, hbody, -⟩ := receiver_outlives_call (n := 5) 1 hsettled hd
  have hlast : ending Handle.held 0
      ((within 10 6).call (.share 1) "leave" [.own 0] 1 .leaving) =
      [⟨⟨((within 10 6).call (.share 1) "leave" [.own 0] 1 .leaving).2, 0⟩, none⟩] := by
    rw [eq_of_answer hanswer]
    rfl
  refine ⟨_, _, hcourse.trans (congrArg _ hlast), ?_, Option.isNone_iff_eq_none.1 hafter⟩
  · intro p hp
    obtain ⟨fields, hget, -⟩ := hbody p hp
    rw [hget]
    rfl

end Mython
