import Mython.Proofs.Store.Ownership
import Mython.Run.Call

/-! A `Script` tells how a run is made of few kinds of steps, with the methods of a program known
only through a guest. Every evaluation and every execution has a script, so what holds of the steps
holds of them all. -/

namespace Mython

open Run

/-- What a completed statement hands over. -/
def Completion.held : Completion → Multiset Handle
  | next x => x.held
  | ret x => x.held

/-- Whether a fault is about the depth of calls. -/
def Fault.Cause.isDepth : Fault.Cause → Bool
  | depth _ => true
  | _ => false

namespace Run

theorem bind_of_ok {α β : Type} {f : Run α} {k : α → Run β} {m m' : Machine} {a : α}
    (h : f m = (.ok a, m')) : (f >>= k) m = k a m' := by
  simp only [bind, ExceptT.bind, ExceptT.mk, StateT.bind, h]
  rfl

theorem bind_of_error {α β : Type} {f : Run α} {k : α → Run β} {m m' : Machine} {e : Halt}
    (h : f m = (.error e, m')) : (f >>= k) m = (.error e, m') := by
  simp only [bind, ExceptT.bind, ExceptT.mk, StateT.bind, h]
  rfl

theorem ask_bind {α β : Type} (look : Heap → α) (k : α → Run β) (m : Machine) :
    (ask look >>= k) m = k (look m.heap) m := bind_of_ok rfl

theorem retain_bind {β : Type} (x : Handle) (k : Unit → Run β) (m : Machine) :
    (retain x >>= k) m = k () { m with heap := m.heap.retain x } := bind_of_ok rfl

theorem pure_apply {α : Type} (a : α) (m : Machine) : (pure a : Run α) m = (.ok a, m) := rfl

theorem write_of_some {line : Nat} {text : String} {m : Machine} {sink : Sink}
    (h : m.sink.write? text = some sink) : write line text m = (.ok (), { m with sink }) := by
  rw [write, h]

theorem write_of_none {line : Nat} {text : String} {m : Machine}
    (h : m.sink.write? text = none) :
    write line text m = (.error (.fault ⟨line, .output m.sink.refusal⟩), m) := by
  rw [write, h]

/-- A new object that is computed from the heap. -/
def compute (line : Nat) (look : Heap → Except Fault.Cause Object) : Run Handle := do
  fresh (← settle line (← ask look))

/-- The value of a field, as one more owner of it. -/
def fetch (x : Handle) (owner name : String) (line : Nat) : Run Handle := do
  let y ← settle line (← ask fun h => h.field x owner name)
  retain y
  return y

/-- Holds the object at a place that was found occupied while `body` runs, or does something else
if none was found. -/
def seize (look : Heap → Except β Loc) (body : Loc → Run α) (other : β → Run α) : Run α := do
  match ← ask look with
  | .ok loc =>
    retain (.own loc)
    holding (.own loc) (body loc)
  | .error found => other found

theorem seize_of_ok {α β : Type} {look : Heap → Except β Loc} {body : Loc → Run α}
    {other : β → Run α} {m : Machine} {loc : Loc} (h : look m.heap = .ok loc) :
    seize look body other m = (do retain (.own loc); holding (.own loc) (body loc) : Run α) m := by
  rw [seize, ask_bind, h]

theorem seize_of_error {α β : Type} {look : Heap → Except β Loc} {body : Loc → Run α}
    {other : β → Run α} {m : Machine} {found : β} (h : look m.heap = .error found) :
    seize look body other m = other found m := by
  rw [seize, ask_bind, h]

/-- The place of the instance that a value is. -/
def instanceAt (x : Handle) (h : Heap) : Except Unit Loc :=
  match x.loc?, h.isInstance x with
  | some loc, true => .ok loc
  | _, _ => .error ()

theorem holdingInstance_eq_seize {α : Type} (x : Handle) (describe : String) (line : Nat)
    (body : Loc → Run α) :
    holdingInstance x describe line body =
      seize (instanceAt x) body fun _ => raise line (.notInstance describe) := by
  funext m
  rw [holdingInstance, seize, ask_bind, ask_bind, instanceAt]
  cases x.loc? with
  | none => rfl
  | some loc => cases m.heap.isInstance x <;> rfl

/-- Gives a value to a field of an instance that is held meanwhile. -/
def bestow (loc : Loc) (field : String) (value : Run Handle) : Run Completion := do
  let y ← value
  retain y
  assignField loc field y
  return .next y

theorem keeping_of_ok {α : Type} {x : Handle} {f : Run α} {m m' : Machine} {a : α}
    (h : f m = (.ok a, m')) : keeping x f m = (.ok a, m') := by
  simp only [keeping, h]

theorem keeping_of_error {α : Type} {x : Handle} {f : Run α} {m m' : Machine} {e : Halt}
    (h : f m = (.error e, m')) :
    keeping x f m = (.error e, { m' with heap := m'.heap.release x }) := by
  simp only [keeping, h]

/-- What is kept while something runs is there to be returned afterwards. -/
theorem keeping_return {α β : Type} (x : Handle) (f : Run α) (b : β) :
    keeping x (f >>= fun _ => pure b) = keeping x f >>= fun _ => pure b := by
  funext m
  rcases hf : f m with ⟨e | a, m'⟩
  · rw [keeping_of_error (bind_of_error hf), bind_of_error (keeping_of_error hf)]
  · rw [keeping_of_ok ((bind_of_ok hf).trans (pure_apply b m')), bind_of_ok (keeping_of_ok hf)]
    rfl

end Run

/-- The steps that no method has a part in, with what they hold before and after. -/
inductive Primitive : {α : Type} → Multiset Handle → Run α → (α → Multiset Handle) → Type 1
  | pure {α : Type} (a : α) (q : α → Multiset Handle) : Primitive (q a) (pure a) q
  | ask {α : Type} (look : Heap → α) : Primitive 0 (ask look) fun _ => 0
  | raise {α : Type} (line : Nat) {cause : Fault.Cause} (hc : cause.isDepth = false)
      (q : α → Multiset Handle) : Primitive 0 (raise line cause) q
  | fresh {object : Object} (ho : object.fields? = none) : Primitive 0 (fresh object) Handle.held
  | freshInstance (cls : Class) : Primitive 0 (freshInstance cls) Handle.held
  | compute (line : Nat) {look : Heap → Except Fault.Cause Object}
      (ho : ∀ h object, look h = .ok object → object.fields? = none)
      (hc : ∀ h cause, look h = .error cause → cause.isDepth = false) :
      Primitive 0 (compute line look) Handle.held
  | path (root : String) (fields : List String) (line : Nat) :
      Primitive 0 (path root fields line) Handle.held
  | fetch (x : Handle) (owner name : String) (line : Nat) :
      Primitive 0 (fetch x owner name line) Handle.held
  | retain (x : Handle) : Primitive x.held (retain x) fun _ => x.held + x.held
  | release (x : Handle) : Primitive x.held (release x) fun _ => 0
  | releaseAll (xs : List Handle) : Primitive (Handle.heldAll xs) (releaseAll xs) fun _ => 0
  | assign (name : String) (x : Handle) : Primitive x.held (assign name x) fun _ => 0
  | write (line : Nat) (text : String) : Primitive 0 (write line text) fun _ => 0

/-- Runs made of primitive steps and requests to a guest, with what they hold before and after. Only
a step that always answers may leave something aside that is held. -/
inductive Script :
    {α : Type} → Multiset Handle → (Guest → Run α) → (α → Multiset Handle) → Type 1
  | step {α : Type} {p : Multiset Handle} {f : Run α} {q : α → Multiset Handle}
      (h : Primitive p f q) : Script p (fun _ => f) q
  | frame {α : Type} {p : Multiset Handle} {f : Run α} {q : α → Multiset Handle}
      (rest : Multiset Handle) (h : Primitive p f q) (hf : ∀ m, ∃ a m', f m = (.ok a, m')) :
      Script (p + rest) (fun _ => f) fun a => q a + rest
  | bind {α β : Type} {p : Multiset Handle} {f : Guest → Run α} {k : Guest → α → Run β}
      {q : α → Multiset Handle} {r : β → Multiset Handle} (h : Script p f q)
      (hk : ∀ a, Script (q a) (fun g => k g a) r) : Script p (fun g => f g >>= k g) r
  | holding {α : Type} {p : Multiset Handle} {f : Guest → Run α} {q : α → Multiset Handle}
      (x : Handle) (h : Script p f q) : Script (x.held + p) (fun g => holding x (f g)) q
  | keeping {α : Type} {p : Multiset Handle} {f : Guest → Run α} {q : α → Multiset Handle}
      (x : Handle) (h : Script p f q) :
      Script (x.held + p) (fun g => keeping x (f g)) fun a => x.held + q a
  | seize {α β : Type} {look : Heap → Except β Loc} {body : Guest → Loc → Run α}
      {other : Guest → β → Run α} {q : α → Multiset Handle}
      (hl : ∀ h loc, look h = .ok loc → (h.get? loc).isSome = true)
      (hb : ∀ loc, Script 0 (fun g => body g loc) q) (ho : ∀ b, Script 0 (fun g => other g b) q) :
      Script 0 (fun g => seize look (body g) (other g)) q
  | bestow {f : Guest → Run Handle} (x : Handle) (describe field : String) (line : Nat)
      (h : Script 0 f Handle.held) :
      Script 0 (fun g => seize (instanceAt x) (fun loc => bestow loc field (f g)) fun _ =>
        raise line (.notInstance describe)) Completion.held
  | call (x : Handle) (name : String) (args : List Handle) (line : Nat) :
      Script (Handle.heldAll args) (fun g => g.call x name args line) Handle.held
  | render (x : Handle) (line : Nat) : Script 0 (fun g => g.render x line) fun _ => 0
  | conv {α : Type} {p p' : Multiset Handle} {f f' : Guest → Run α} {q q' : α → Multiset Handle}
      (h : Script p f q) (hp : p = p') (hf : ∀ g, f g = f' g) (hq : ∀ a, q a = q' a) :
      Script p' f' q'

namespace Script

/-- A script of the same run, with what is held written in another way. -/
def of_eq {α : Type} {p p' : Multiset Handle} {f : Guest → Run α} {q q' : α → Multiset Handle}
    (h : Script p f q) (hp : p = p') (hq : ∀ a, q a = q' a) : Script p' f q' :=
  h.conv hp (fun _ => rfl) hq

/-- A script of a run that is written in another way. -/
def of_run {α : Type} {p : Multiset Handle} {f f' : Guest → Run α} {q : α → Multiset Handle}
    (h : Script p f q) (hf : ∀ g, f g = f' g) : Script p f' q :=
  h.conv rfl hf fun _ => rfl

/-- Asks something about the heap and goes on with the answer. -/
def asking {α β : Type} {p : Multiset Handle} {k : Guest → α → Run β} {q : β → Multiset Handle}
    (look : Heap → α) (hk : ∀ a, Script p (fun g => k g a) q) :
    Script p (fun g => ask look >>= k g) q :=
  ((frame p (.ask look) fun _ => ⟨_, _, rfl⟩).of_eq (zero_add p) fun _ => zero_add p).bind hk

/-- Goes on in one of two ways. -/
def branch {α : Type} {p : Multiset Handle} {f f' : Guest → Run α} {q : α → Multiset Handle}
    (c : Prop) [Decidable c] (h : Script p f q) (h' : Script p f' q) :
    Script p (fun g => if c then f g else f' g) q :=
  if hc : c then h.of_run fun _ => (if_pos hc).symm else h'.of_run fun _ => (if_neg hc).symm

/-- Holds a value that is held anyway while something else is done. -/
def holdingIt {α : Type} {f : Guest → Run α} {q : α → Multiset Handle} (x : Handle)
    (h : Script 0 f q) : Script x.held (fun g => Run.holding x (f g)) q :=
  (holding x h).of_eq (add_zero _) fun _ => rfl

/-- Keeps a value that is held anyway while something else is done. -/
def keepingIt {α : Type} {f : Guest → Run α} {q : α → Multiset Handle} (x : Handle)
    (h : Script 0 f q) :
    Script x.held (fun g => Run.keeping x (f g)) fun a => x.held + q a :=
  (keeping x h).of_eq (add_zero _) fun _ => rfl

/-- Computes a value and holds it while something else is done. -/
def hold {α : Type} {p : Multiset Handle} {f : Guest → Run Handle} {k : Guest → Handle → Run α}
    {q : α → Multiset Handle} (h : Script p f Handle.held) (hk : ∀ x, Script 0 (fun g => k g x) q) :
    Script p (fun g => f g >>= fun x => Run.holding x (k g x)) q :=
  h.bind fun x => (hk x).holdingIt x

/-- Hands over what is held. -/
def pureHeld {α : Type} {p : Multiset Handle} {a : α} {q : α → Multiset Handle}
    (hp : q a = p) : Script p (fun _ => (pure a : Run α)) q :=
  (step (.pure a q)).of_eq hp fun _ => rfl

/-- Answers with nothing held. -/
def still {α : Type} (a : α) : Script 0 (fun _ => (pure a : Run α)) fun _ => 0 :=
  step (.pure a fun _ => 0)

/-- A new truth about the heap. -/
def truthOf (look : Heap → Bool) :
    Script 0 (fun _ => ask look >>= fun b => Run.fresh (.truth b)) Handle.held :=
  asking look fun _ => step (.fresh rfl)

end Script

end Mython
