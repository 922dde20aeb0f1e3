import Mython.Session

namespace Mython

/-- A bench: the slots are the scope of its machine. -/
structure Workbench where
  machine : Machine
  /-- The known classes, the newest first. -/
  classes : List Class
  /-- The limit on the depth of calls. -/
  limit : Nat

namespace Workbench

/-- What a slot can be filled with. -/
inductive Content where
  | absent
  | number (digits : String)
  | text (content : String)
  | truth (value : Bool)
  /-- A class as a value. -/
  | classNamed (name : String)
  /-- A new instance, on which nothing has been called. -/
  | instanceOf (cls : String)
  /-- The handle in a slot. -/
  | copyOf (slot : String)

/-- What can be asked of a bench. -/
inductive Command where
  | fill (slot : String) (content : Content)
  /-- Puts the field of the instance in a slot into another slot. -/
  | getField (slot field into : String)
  /-- Gives the value in `value` to a field of the instance in a slot. -/
  | setField (slot field value : String)
  | drop (slot : String)
  /-- Makes a class whose methods do nothing. -/
  | define (name : String) (methods : List (String × List String)) (parent : Option String)
  /-- Takes the classes that a program defines outside all blocks, without running it. -/
  | load (source : String)
  | findMethod (cls name : String)
  | hasMethod (slot name : String) (arity : Nat)
  | inspect (slot : String)
  | same (left right : String)
  | compare (relation : Relation) (left right : String)
  /-- Calls a method of the value in a slot, and may put the result into a slot. -/
  | call (slot method : String) (args : List String) (line : Nat) (into : Option String)
  | render (slot : String) (line : Nat)

/-- All that can be seen of a handle. -/
structure Inspection where
  handle : Handle
  kind : ValueKind
  isTrue : Bool
  number : Option Number
  text : Option String
  plain : Option String
  debug : String
  value : Snapshot

/-- What a bench answers. -/
inductive Answer where
  | value (picture : Snapshot)
  | missing
  | debug (text : String)
  | truth (value : Bool)
  | defined (cls : Class)
  | loaded (names : List String)
  | rejected (e : SyntaxError)
  | method (m : Method)
  | inspected (all : Inspection)
  /-- The result of a call and what it printed. -/
  | called (result : Except Halt Snapshot) (output : String)
  /-- The text of a value and what was printed on the way to it. -/
  | rendered (result : Except Halt String) (output : String)
  | refused

/-- An empty bench. -/
def new (limit : Nat) : Workbench := ⟨.start .endless, [], limit⟩

/-- The handle in a slot. -/
def slot (w : Workbench) (name : String) : Handle := (w.machine.scope.get? name).getD .absent

/-- The heap of a bench. -/
def heap (w : Workbench) : Heap := w.machine.heap

/-- The newest class of a name. -/
def class? (w : Workbench) (name : String) : Option Class :=
  w.classes.find? fun c => c.name == name

/-- The bench after a run, with the result and what was printed. -/
def run (w : Workbench) (body : Run α) : Except Halt α × String × Workbench :=
  let (result, m) := body (w.machine.renew .endless)
  (result, m.sink.contents, { w with machine := m })

/-- The bench after a run that cannot halt. -/
def after (w : Workbench) (body : Run Unit) : Workbench := (w.run body).2.2

/-- The fields of the instance in a slot, and where it is. -/
def instance? (w : Workbench) (name : String) : Option (Loc × Class × Bindings) :=
  match (w.slot name).loc?, w.heap.object? (w.slot name) with
  | some loc, some (.inst c fields) => some (loc, c, fields)
  | _, _ => none

/-- A handle for a slot, if the content is to be had. -/
def obtain? (w : Workbench) : Content → Option (Run Handle)
  | .absent => some (pure .absent)
  | .number digits => (Decimal.readNumber? digits).map fun n => Run.fresh (.number n)
  | .text content => some (Run.fresh (.text content))
  | .truth value => some (Run.fresh (.truth value))
  | .classNamed name => (w.class? name).map fun c => Run.fresh (.cls c)
  | .instanceOf name => (w.class? name).map Run.freshInstance
  | .copyOf name =>
    let x := w.slot name
    some do
      Run.retain x
      return x

/-- Puts a handle into a slot and answers with a picture of it. -/
def fill (w : Workbench) (slot : String) (body : Run Handle) : Answer × Workbench :=
  match w.run body with
  | (.ok x, _, w) => (.value (w.heap.snapshot x), w.after (Run.assign slot x))
  | (.error _, _, w) => (.refused, w)

/-- All that can be seen of the handle in a slot. -/
def inspection (w : Workbench) (name : String) : Inspection where
  handle := w.slot name
  kind := w.heap.kind (w.slot name)
  isTrue := w.heap.isTrue (w.slot name)
  number := w.heap.number? (w.slot name)
  text := w.heap.text? (w.slot name)
  plain := w.heap.plainText? (w.slot name)
  debug := w.heap.debug (w.slot name)
  value := w.heap.snapshot (w.slot name)

/-- Adds a class to a bench. -/
def learn (w : Workbench) (c : Class) : Workbench := { w with classes := c :: w.classes }

/-- The classes that statements define outside all blocks. -/
def definitions (body : List Stmt) : List Class :=
  body.filterMap fun
    | .define c _ => some c
    | _ => none

/-- Calls a method with values from slots. -/
def invoke (w : Workbench) (slot method : String) (args : List String) (line : Nat)
    (into : Option String) : Answer × Workbench :=
  let call : Run Handle := do
    let args := args.map w.slot
    args.forM Run.retain
    (Guest.limited w.limit).call (w.slot slot) method args line
  match w.run call with
  | (.error halt, output, w) => (.called (.error halt) output, w)
  | (.ok x, output, w) =>
    let keep := match into with
      | some slot => Run.assign slot x
      | none => Run.release x
    (.called (.ok (w.heap.snapshot x)) output, w.after keep)

/-- Carries out a command. -/
def perform (w : Workbench) : Command → Answer × Workbench
  | .fill slot content =>
    match w.obtain? content with
    | some body => w.fill slot body
    | none => (.refused, w)
  | .getField slot field into =>
    match w.instance? slot with
    | none => (.refused, w)
    | some (_, _, fields) =>
      match fields.get? field with
      | none => (.missing, w)
      | some x => w.fill into do
        Run.retain x
        return x
  | .setField slot field value =>
    match w.instance? slot with
    | none => (.refused, w)
    | some (loc, _, _) =>
      let x := w.slot value
      let assignment : Run String := do
        Run.retain (.own loc)
        Run.holding (.own loc) do
          Run.retain x
          Run.assignField loc field x
          Run.ask fun h => h.debug (.own loc)
      match w.run assignment with
      | (.ok text, _, w) => (.debug text, w)
      | (.error _, _, w) => (.refused, w)
  | .drop slot =>
    match w.machine.scope.get? slot with
    | none => (.truth false, w)
    | some x =>
      let m := { w.machine with
        heap := w.heap.release x
        scope := w.machine.scope.erase slot }
      (.truth true, { w with machine := m })
  | .define name methods parent =>
    let methods := methods.map fun (name, params) => ⟨name, params, []⟩
    match parent with
    | none =>
      let c : Class := ⟨name, methods, none⟩
      (.defined c, w.learn c)
    | some parent =>
      match w.class? parent with
      | none => (.refused, w)
      | some p =>
        let c : Class := ⟨name, methods, some p⟩
        (.defined c, w.learn c)
  | .load source =>
    match parse source with
    | .error e => (.rejected e, w)
    | .ok p =>
      let classes := definitions p.body
      (.loaded (classes.map (·.name)), classes.foldl learn w)
  | .findMethod cls name =>
    match w.class? cls with
    | none => (.refused, w)
    | some c =>
      match c.method? name with
      | some m => (.method m, w)
      | none => (.missing, w)
  | .hasMethod slot name arity =>
    match w.instance? slot with
    | none => (.refused, w)
    | some (_, c, _) => (.truth (c.accepting? name arity).isSome, w)
  | .inspect slot => (.inspected (w.inspection slot), w)
  | .same left right => (.truth (w.heap.same (w.slot left) (w.slot right)), w)
  | .compare relation left right =>
    (.truth (w.heap.holds relation (w.slot left) (w.slot right)), w)
  | .call slot method args line into => w.invoke slot method args line into
  | .render slot line =>
    let (result, output, w) := w.run ((Guest.limited w.limit).render (w.slot slot) line)
    (.rendered result output, w)

/-- Carries out commands in order; `none` stands for one that could not be understood. -/
def performAll : Workbench → List (Option Command) → List Answer
  | _, [] => []
  | w, none :: commands => .refused :: w.performAll commands
  | w, some command :: commands =>
    let (answer, w) := w.perform command
    answer :: w.performAll commands

end Workbench

end Mython
