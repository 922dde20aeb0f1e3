import Mython.Proofs.Run.Evaluation

namespace Mython

open Run

namespace Guest

/-- How a method gives the text of an instance. -/
def textOfScript (x : Handle) (line : Nat) : Script 0 (fun g => g.textOf x line) fun _ => 0 :=
  (Script.call x textName [] line).hold fun y => .render y line

/-- What is looked up for a text: an instance whose class gives it, or else what is there. -/
def speaker (x : Handle) (h : Heap) : Except (Option Object) Loc :=
  match x.loc?, h.object? x with
  | some loc, some (.inst cls fields) =>
    if (cls.accepting? textName 0).isSome then .ok loc else .error (some (.inst cls fields))
  | _, found => .error found

/-- The text of what does not give it itself as an instance, at the place where it was found. -/
def otherText (g : Guest) (line : Nat) : Option Loc → Option Object → Run String
  | some loc, some (.cls cls) =>
    if (cls.accepting? textName 0).isSome then do
      let y ← freshInstance cls
      holding y (g.textOf y line)
    else
      return Object.plainText loc (.cls cls)
  | some loc, some object => return object.plainText loc
  | _, _ => return absentText

theorem text_eq_seize (g : Guest) (x : Handle) (line : Nat) :
    g.text x line = seize (speaker x) (fun _ => g.textOf x line) (g.otherText line x.loc?) := by
  funext m
  rw [text, seize, ask_bind, ask_bind, speaker]
  cases hloc : x.loc? with
  | none => cases hobject : m.heap.object? x <;> simp only [otherText]
  | some loc =>
    cases hobject : m.heap.object? x with
    | none => simp only [otherText]
    | some object =>
      cases object with
      | inst cls fields =>
        cases hgives : (cls.accepting? textName 0).isSome <;>
          simp only [hgives, otherText, if_true, Bool.false_eq_true, if_false]
      | _ => simp only [otherText]

theorem speaker_live {x : Handle} {h : Heap} {loc : Loc} (hs : speaker x h = .ok loc) :
    (h.get? loc).isSome = true := by
  rw [speaker] at hs
  split at hs
  · next place cls fields hloc hobject =>
    split at hs
    · cases hs
      rw [← Heap.object?_eq_get? hloc, hobject]
      rfl
    · cases hs
  · cases hs

/-- How the text of something else is found. -/
def otherTextScript (line : Nat) : (place : Option Loc) → (found : Option Object) →
    Script 0 (fun g => g.otherText line place found) fun _ => 0
  | some _, some (.cls cls) =>
    .branch ((cls.accepting? textName 0).isSome = true)
      ((Script.step (.freshInstance cls)).hold fun y => textOfScript y line) (.still _)
  | some _, some (.number _) | some _, some (.text _) | some _, some (.truth _)
  | some _, some (.inst _ _) | some _, none | none, some _ | none, none => .still _

/-- How a value is put into text. -/
def textScript (x : Handle) (line : Nat) : Script 0 (fun g => g.text x line) fun _ => 0 :=
  (Script.seize (fun _ _ => speaker_live) (fun _ => textOfScript x line)
    (otherTextScript line x.loc?)).of_run fun g => (text_eq_seize g x line).symm

/-- The text of a value, with the addresses that a host gives. -/
def textAt (address : Loc → Nat) (g : Guest) (x : Handle) (line : Nat) : Run String :=
  seize (speaker x) (fun _ => g.textOf x line) (g.otherText line (x.loc?.map address))

/-- The guest with a given amount of fuel and limit on the depth of calls, on a host that gives
addresses. -/
def hosted (address : Loc → Nat) (limit : Nat) : Nat → Guest
  | 0 => ⟨fun _ _ _ _ => throw .exhausted, fun _ _ => throw .exhausted⟩
  | n + 1 =>
    ⟨fun x name args line => (hosted address limit n).invoke limit x name args line,
      fun x line => (hosted address limit n).textAt address x line⟩

theorem textAt_id (g : Guest) (x : Handle) (line : Nat) : g.textAt id x line = g.text x line := by
  rw [text_eq_seize, textAt, Option.map_id]
  rfl

/-- Where places are their own addresses, the guest is the one that evaluation is used with. -/
theorem hosted_id (limit n : Nat) : hosted id limit n = within limit n := by
  induction n with
  | zero => rfl
  | succ n ih => simp only [hosted, within, ih, textAt_id]

/-- How a value is put into text, whatever its address. -/
def textAtScript (address : Loc → Nat) (x : Handle) (line : Nat) :
    Script 0 (fun g => g.textAt address x line) fun _ => 0 :=
  .seize (fun _ _ => speaker_live) (fun _ => textOfScript x line)
    (otherTextScript line (x.loc?.map address))

/-- Runs the body of a method in its scope. -/
def body (g : Guest) (method : Method) (args : List Handle) : Run Handle := do
  assignAll method.params args
  result (← Stmt.execAll g method.body)

/-- How arguments are bound to the names of parameters. -/
def assignAllScript : (names : List String) → (xs : List Handle) → names.length = xs.length →
    Script (Handle.heldAll xs) (fun _ => assignAll names xs) fun _ => 0
  | [], [], _ => .pureHeld rfl
  | name :: names, x :: xs, h =>
    ((Script.frame (Handle.heldAll xs) (.assign name x) fun _ => ⟨_, _, rfl⟩).of_eq
      (Handle.heldAll_cons x xs).symm fun _ => zero_add _).bind fun _ =>
        assignAllScript names xs (Nat.succ.inj h)

/-- How a finished body gives the value of a call. -/
def resultScript : (completion : Completion) →
    Script completion.held (fun _ => result completion) Handle.held
  | .ret x => .step (.pure x Handle.held)
  | .next x => (Script.step (.release x)).bind fun _ => .step (.pure Handle.absent Handle.held)

/-- How the body of a method is run. It uses up the arguments. -/
def bodyScript (method : Method) (args : List Handle) (h : method.arity = args.length) :
    Script (Handle.heldAll args) (fun g => g.body method args) Handle.held :=
  (assignAllScript method.params args h).bind fun _ =>
    (Stmt.scriptAll method.body).bind resultScript

/-- Runs something in the scope of a call on the instance at a place, which is held meanwhile. -/
def enter (loc : Loc) (f : Run Handle) : Run Handle := do
  retain (.own loc)
  holding (.own loc) do
    retain (.own loc)
    inScope ⟨[(selfName, .own loc)]⟩ f

theorem enter_apply (loc : Loc) (f : Run Handle) (m : Machine) :
    enter loc f m = holding (.own loc) (inScope ⟨[(selfName, .own loc)]⟩ f)
      { m with heap := (m.heap.retain (.own loc)).retain (.own loc) } := rfl

/-- Calls a method, given how bodies are run. -/
def around (limit : Nat) (run : Method → List Handle → Run Handle) (x : Handle) (name : String)
    (args : List Handle) (line : Nat) : Run Handle := do
  match (← get).dispatch limit x name args.length with
  | .error cause =>
    releaseAll args
    raise line cause
  | .ok (loc, method) => enter loc (run method args)

theorem invoke_eq_around (g : Guest) (limit : Nat) (x : Handle) (name : String)
    (args : List Handle) (line : Nat) :
    g.invoke limit x name args line = around limit g.body x name args line := rfl

section Around

variable {limit line : Nat} {run : Method → List Handle → Run Handle} {x : Handle} {name : String}
  {args : List Handle} {m : Machine}

theorem around_of_ok {loc : Loc} {method : Method}
    (h : m.dispatch limit x name args.length = .ok (loc, method)) :
    around limit run x name args line m = enter loc (run method args) m := by
  have hget : (get : Run Machine) m = (.ok m, m) := rfl
  rw [around, bind_of_ok hget, h]

theorem around_of_error {cause : Fault.Cause}
    (h : m.dispatch limit x name args.length = .error cause) :
    around limit run x name args line m =
      (.error (.fault ⟨line, cause⟩), { m with heap := args.foldl Heap.release m.heap }) := by
  have hget : (get : Run Machine) m = (.ok m, m) := rfl
  rw [around, bind_of_ok hget, h]
  rfl

end Around

end Guest

namespace Machine

/-- The state in which the body of a method starts, on the instance at a place. -/
def entered (m : Machine) (loc : Loc) : Machine where
  heap := (m.heap.retain (.own loc)).retain (.own loc)
  scope := ⟨[(selfName, .own loc)]⟩
  sink := m.sink
  depth := m.depth + 1

/-- A call that is made is one on an instance, with as many arguments as its method takes, and from
less deep than the limit. -/
theorem dispatch_ok {m : Machine} {limit args : Nat} {x : Handle} {name : String} {loc : Loc}
    {method : Method} (h : m.dispatch limit x name args = .ok (loc, method)) :
    x.loc? = some loc ∧ (∃ cls fields, m.heap.get? loc = some (.inst cls fields)) ∧
      method.arity = args ∧ m.depth < limit := by
  rw [dispatch] at h
  split at h
  · next place cls fields hloc hobject =>
    split at h
    · cases h
    · split at h
      · cases h
      · split at h
        · cases h
        · next harity hdepth =>
          cases h
          rw [Heap.object?_eq_get? hloc] at hobject
          exact ⟨hloc, ⟨cls, fields, hobject⟩, not_not.1 harity, Nat.lt_of_not_le hdepth⟩
  · cases h
  · cases h

/-- A limit decides only between a call and a fault that names it: another limit that is not smaller
changes nothing else. -/
theorem dispatch_limit (m : Machine) {limit limit' : Nat} (hle : limit ≤ limit') (x : Handle)
    (name : String) (args : Nat) :
    m.dispatch limit x name args = .error (.depth limit) ∨
      m.dispatch limit x name args = m.dispatch limit' x name args ∧
        ∀ cause, m.dispatch limit x name args = .error cause → cause.isDepth = false := by
  simp only [dispatch]
  split
  · split
    · refine Or.inr ⟨rfl, ?_⟩
      rintro cause ⟨⟩
      rfl
    · split
      · refine Or.inr ⟨rfl, ?_⟩
        rintro cause ⟨⟩
        rfl
      · by_cases hdepth : limit ≤ m.depth
        · rw [if_pos hdepth]
          exact Or.inl rfl
        · rw [if_neg hdepth, if_neg (fun h => hdepth (hle.trans h))]
          refine Or.inr ⟨rfl, ?_⟩
          rintro cause ⟨⟩
  · refine Or.inr ⟨rfl, ?_⟩
    rintro cause ⟨⟩
    rfl
  · refine Or.inr ⟨rfl, ?_⟩
    rintro cause ⟨⟩
    rfl

end Machine

end Mython
