import Mython.Proofs.Run.Hosted
import Mython.Proofs.Store.Likeness

namespace Mython

open Run

variable {L : Likeness}

/-- Two states that differ only in where objects are and in which handles lead to them. -/
structure Machine.Like (L : Likeness) (m m' : Machine) : Prop where
  heap : m.heap.Like L m'.heap
  scope : m.scope.Like L.handle m'.scope
  sink : m'.sink = m.sink
  depth : m'.depth = m.depth

/-- Two completed statements that end alike. -/
inductive Completion.Like (V : Handle → Handle → Prop) : Completion → Completion → Prop
  | next {x x' : Handle} (h : V x x') : Like V (.next x) (.next x')
  | ret {x x' : Handle} (h : V x x') : Like V (.ret x) (.ret x')

/-- Two runs that end alike: with related results or with the same halt, in states that are. -/
inductive Run.EndLike (L : Likeness) (R : α → β → Prop) :
    Except Halt α × Machine → Except Halt β × Machine → Prop
  | ok {a : α} {b : β} {m m' : Machine} (ha : R a b) (hm : m.Like L m') :
      EndLike L R (.ok a, m) (.ok b, m')
  | error (halt : Halt) {m m' : Machine} (hm : m.Like L m') :
      EndLike L R (.error halt, m) (.error halt, m')

/-- Two runs that end alike from any two states that are alike. -/
def Run.Like (L : Likeness) (R : α → β → Prop) (f : Run α) (f' : Run β) : Prop :=
  ∀ m m', m.Like L m' → EndLike L R (f m) (f' m')

theorem Run.EndLike.like {R : α → β → Prop} {r : Except Halt α × Machine}
    {r' : Except Halt β × Machine} (h : EndLike L R r r') : r.2.Like L r'.2 := by
  cases h with
  | ok ha hm => exact hm
  | error halt hm => exact hm

theorem Run.EndLike.result_eq {r r' : Except Halt α × Machine} (h : EndLike L Eq r r') :
    r'.1 = r.1 := by
  cases h with
  | ok ha hm => exact congrArg Except.ok ha.symm
  | error halt hm => rfl

/-- Values that are alike, one by one. -/
abbrev Likeness.handles (L : Likeness) : List Handle → List Handle → Prop :=
  List.Forall₂ L.handle

namespace Machine.Like

variable {m m' : Machine}

/-- A change of both heaps changes nothing else. -/
theorem withHeap (hm : m.Like L m') {h h' : Heap} (hh : h.Like L h') :
    Machine.Like L { m with heap := h } { m' with heap := h' } :=
  ⟨hh, hm.scope, hm.sink, hm.depth⟩

/-- A call is about the same method in both states, on instances that belong together. -/
theorem dispatch (hm : m.Like L m') {x x' : Handle} (hx : L.handle x x') (limit : Nat)
    (name : String) (args : Nat) :
    m'.dispatch limit x' name args =
      (m.dispatch limit x name args).map fun found => (L.place found.1, found.2) := by
  rcases hm.heap.found hx with ⟨hnone, hnone'⟩ |
    ⟨loc, object, object', hloc, hloc', hobject, hobject', ho⟩
  · rw [Machine.dispatch, Machine.dispatch, hnone, hnone']
    cases x.loc? <;> cases x'.loc? <;> rfl
  · rw [Machine.dispatch, Machine.dispatch, hloc, hloc', hobject, hobject', hm.depth]
    cases ho with
    | plain h =>
      cases object with
      | inst cls fields => cases h
      | _ => rfl
    | inst cls h =>
      simp only
      cases cls.method? name with
      | none => rfl
      | some method =>
        simp only
        split
        · rfl
        · split <;> rfl

end Machine.Like

namespace Run.Like

variable {R : α → β → Prop} {S : γ → δ → Prop}

theorem pure {a : α} {b : β} (ha : R a b) : Run.Like L R (pure a) (pure b) :=
  fun _ _ hm => .ok ha hm

theorem raise (line : Nat) (cause : Fault.Cause) :
    Run.Like L R (raise line cause) (raise line cause) :=
  fun _ _ hm => .error _ hm

theorem bind {f : Run α} {f' : Run β} {k : α → Run γ} {k' : β → Run δ} (hf : Run.Like L R f f')
    (hk : ∀ a b, R a b → Run.Like L S (k a) (k' b)) : Run.Like L S (f >>= k) (f' >>= k') := by
  intro m m' hm
  have hends := hf m m' hm
  rcases hr : f m with ⟨r, s⟩
  rcases hr' : f' m' with ⟨r', s'⟩
  rw [hr, hr'] at hends
  cases hends with
  | ok ha hs =>
    rw [bind_of_ok hr, bind_of_ok hr']
    exact hk _ _ ha s s' hs
  | error halt hs =>
    rw [bind_of_error hr, bind_of_error hr']
    exact .error halt hs

/-- A question to the heap that has the same answer in both. -/
theorem ask {look look' : Heap → ε} {k : ε → Run α} {k' : ε → Run β}
    (hlook : ∀ h h', h.Like L h' → look' h' = look h) (hk : ∀ e, Run.Like L R (k e) (k' e)) :
    Run.Like L R (ask look >>= k) (ask look' >>= k') := by
  intro m m' hm
  rw [ask_bind, ask_bind, hlook _ _ hm.heap]
  exact hk _ m m' hm

theorem change {f f' : Heap → Heap} (hf : ∀ h h', h.Like L h' → (f h).Like L (f' h')) :
    Run.Like L Eq (change f) (change f') :=
  fun _ _ hm => .ok rfl (hm.withHeap (hf _ _ hm.heap))

section Handles

variable {x x' : Handle} (hx : L.handle x x')
include hx

theorem retain : Run.Like L Eq (retain x) (retain x') :=
  .change fun _ _ hh => hh.retain hx

theorem release : Run.Like L Eq (release x) (release x') :=
  .change fun _ _ hh => hh.release hx

theorem holding {f : Run α} {f' : Run β} (hf : Run.Like L R f f') :
    Run.Like L R (holding x f) (holding x' f') := by
  intro m m' hm
  have hends := hf m m' hm
  rw [Run.holding, Run.holding]
  generalize f m = r, f' m' = r' at hends
  cases hends with
  | ok ha hs => exact .ok ha (hs.withHeap (hs.heap.release hx))
  | error halt hs => exact .error halt (hs.withHeap (hs.heap.release hx))

theorem keeping {f : Run α} {f' : Run β} (hf : Run.Like L R f f') :
    Run.Like L R (keeping x f) (keeping x' f') := by
  intro m m' hm
  have hends := hf m m' hm
  rw [Run.keeping, Run.keeping]
  generalize f m = r, f' m' = r' at hends
  cases hends with
  | ok ha hs => exact .ok ha hs
  | error halt hs => exact .error halt (hs.withHeap (hs.heap.release hx))

theorem assign (name : String) : Run.Like L Eq (assign name x) (assign name x') := by
  intro m m' hm
  have hold := hm.scope.old L.absent name
  exact .ok rfl ⟨hm.heap.release hold, hm.scope.set name hx, hm.sink, hm.depth⟩

theorem assignField (loc : Loc) (name : String) :
    Run.Like L Eq (assignField loc name x) (assignField (L.place loc) name x') :=
  .change fun _ _ hh => (hh.setField loc name hx).release (hh.oldField loc name)

theorem fetch (owner name : String) (line : Nat) :
    Run.Like L L.handle (fetch x owner name line) (fetch x' owner name line) := by
  intro m m' hm
  rw [Run.fetch, Run.fetch, ask_bind, ask_bind]
  rcases hm.heap.field hx owner name with ⟨cause, hf, hf'⟩ | ⟨y, y', hf, hf', hy⟩
  · rw [hf, hf']
    exact .error _ hm
  · rw [hf, hf']
    exact .ok hy (hm.withHeap (hm.heap.retain hy))

/-- A place is held in both states while something else is done. -/
theorem holdingInstance (describe : String) (line : Nat) {body : Loc → Run α} {body' : Loc → Run β}
    (hbody : ∀ loc, Run.Like L R (body loc) (body' (L.place loc))) :
    Run.Like L R (holdingInstance x describe line body)
      (holdingInstance x' describe line body') := by
  intro m m' hm
  have hinstance := hm.heap.isInstance_eq hx
  rw [Run.holdingInstance, Run.holdingInstance, ask_bind, ask_bind, hinstance]
  rcases hm.heap.found hx with ⟨hnone, -⟩ | ⟨loc, -, -, hloc, hloc', -, -, -⟩
  · have hplain : m.heap.isInstance x = false := by
      rw [Heap.isInstance, Heap.kind, hnone]
      rfl
    rw [hplain]
    cases x.loc? <;> cases x'.loc? <;> exact .error _ hm
  · rw [hloc, hloc']
    cases m.heap.isInstance x with
    | false => exact .error _ hm
    | true =>
      have hheld := (hbody loc).holding (L.own loc)
      exact ((retain (L.own loc)).bind fun _ _ _ => hheld) m m' hm

end Handles

theorem releaseAll {xs xs' : List Handle} (hxs : L.handles xs xs') :
    Run.Like L Eq (releaseAll xs) (releaseAll xs') :=
  .change fun _ _ hh => hh.releaseAll hxs

theorem assignAll (names : List String) {xs xs' : List Handle} (hxs : L.handles xs xs') :
    Run.Like L Eq (assignAll names xs) (assignAll names xs') := by
  induction hxs generalizing names with
  | nil =>
    cases names with
    | nil => exact .pure rfl
    | cons name names => exact .pure rfl
  | cons hx _ ih =>
    cases names with
    | nil => exact .pure rfl
    | cons name names => exact (assign hx name).bind fun _ _ _ => ih names

theorem fresh {object : Object} (h : object.fields? = none) :
    Run.Like L L.handle (fresh object) (fresh object) := by
  intro m m' hm
  have hplace := L.own m.heap.size
  rw [← L.size hm.heap.besides] at hplace
  exact .ok hplace (hm.withHeap (hm.heap.alloc (.plain h)))

theorem freshInstance (cls : Class) :
    Run.Like L L.handle (freshInstance cls) (freshInstance cls) := by
  intro m m' hm
  have hplace := L.own m.heap.size
  rw [← L.size hm.heap.besides] at hplace
  exact .ok hplace (hm.withHeap (hm.heap.allocInstance cls))

theorem truth (value : Bool) :
    Run.Like L L.handle (Run.fresh (.truth value)) (Run.fresh (.truth value)) :=
  fresh rfl

/-- A new object that is computed alike. -/
theorem compute (line : Nat) {look look' : Heap → Except Fault.Cause Object}
    (hplain : ∀ h object, look h = .ok object → object.fields? = none)
    (hlook : ∀ h h', h.Like L h' → look' h' = look h) :
    Run.Like L L.handle (compute line look) (compute line look') := by
  intro m m' hm
  rw [Run.compute, Run.compute, ask_bind, ask_bind, hlook _ _ hm.heap]
  cases hfound : look m.heap with
  | ok object => exact fresh (hplain _ _ hfound) m m' hm
  | error cause => exact .error _ hm

theorem path (root : String) (fields : List String) (line : Nat) :
    Run.Like L L.handle (path root fields line) (path root fields line) := by
  intro m m' hm
  have hget := hm.scope.get? root
  rw [Run.path, Run.path]
  generalize m.scope.get? root = z, m'.scope.get? root = z' at hget
  cases hget with
  | none => exact .error _ hm
  | some hx =>
    simp only
    rcases hm.heap.follow hx root fields with ⟨cause, hf, hf'⟩ | ⟨y, y', hf, hf', hy⟩
    · rw [hf, hf']
      exact .error _ hm
    · rw [hf, hf']
      exact .ok hy (hm.withHeap (hm.heap.retain hy))

theorem write (line : Nat) (text : String) :
    Run.Like L Eq (write line text) (write line text) := by
  intro m m' hm
  rw [Run.write, Run.write, hm.sink]
  cases m.sink.write? text with
  | some sink => exact .ok rfl ⟨hm.heap, hm.scope, rfl, hm.depth⟩
  | none => exact .error _ hm

theorem inScope {scope scope' : Bindings} (hscope : scope.Like L.handle scope') {f : Run α}
    {f' : Run β} (hf : Run.Like L R f f') :
    Run.Like L R (inScope scope f) (inScope scope' f') := by
  intro m m' hm
  have hdepth : m'.depth + 1 = m.depth + 1 := by rw [hm.depth]
  have hinner : Machine.Like L { m with scope, depth := m.depth + 1 }
      { m' with scope := scope', depth := m'.depth + 1 } := ⟨hm.heap, hscope, hm.sink, hdepth⟩
  have hends := hf _ _ hinner
  rw [Run.inScope, Run.inScope]
  generalize f _ = r, f' _ = r' at hends
  have hback : ∀ {s s' : Machine}, s.Like L s' → Machine.Like L
      ⟨s.scope.handles.foldl Heap.release s.heap, m.scope, s.sink, s.depth - 1⟩
      ⟨s'.scope.handles.foldl Heap.release s'.heap, m'.scope, s'.sink, s'.depth - 1⟩ := by
    intro s s' hs
    refine ⟨hs.heap.releaseAll hs.scope.handles, hm.scope, hs.sink, ?_⟩
    rw [hs.depth]
  cases hends with
  | ok ha hs => exact .ok ha (hback hs)
  | error halt hs => exact .error halt (hback hs)

/-- A value is computed, and held while something else is done. -/
theorem hold {f f' : Run Handle} {k : Handle → Run α} {k' : Handle → Run β}
    (hf : Run.Like L L.handle f f') (hk : ∀ x x', L.handle x x' → Run.Like L R (k x) (k' x')) :
    Run.Like L R (f >>= fun x => Run.holding x (k x)) (f' >>= fun x => Run.holding x (k' x)) :=
  hf.bind fun x x' hx => .holding hx (hk x x' hx)

end Run.Like

/-- Requests to two guests about values that are alike end alike. -/
structure Guest.Like (L : Likeness) (g g' : Guest) : Prop where
  call : ∀ {x x'}, L.handle x x' → ∀ (name : String) {args args'}, L.handles args args' →
    ∀ line, Run.Like L L.handle (g.call x name args line) (g'.call x' name args' line)
  render : ∀ {x x'}, L.handle x x' → ∀ line,
    Run.Like L Eq (g.render x line) (g'.render x' line)

section Guests

variable {g g' : Guest} (hg : g.Like L g')

include hg in
theorem Run.Like.arithmetic {x x' y y' : Handle} (hx : L.handle x x') (hy : L.handle y y')
    (op : ArithOp) (line : Nat) :
    Run.Like L L.handle (arithmetic g op x y line) (arithmetic g' op x' y' line) := by
  have hleft := hg.call hx addName (.cons hy .nil) line
  have hright := hg.call hy addName (.cons hx .nil) line
  have hjoined := compute line (fun _ _ => ArithOp.onValues_plain)
    fun _ _ hh => hh.onValues_eq hx hy op
  have hplain := holding hx (holding hy hjoined)
  rw [Run.arithmetic, Run.arithmetic]
  apply ask fun _ _ hh => by rw [hh.accepting?_eq hx]
  intro left
  split
  · exact holding hx hleft
  · apply ask fun _ _ hh => by rw [hh.accepting?_eq hy]
    intro right
    split
    · exact holding hy hright
    · exact hplain

mutual

/-- An expression has values that are alike, in states that are alike. -/
theorem Expr.like_eval (hg : g.Like L g') : ∀ e : Expr,
    Run.Like L L.handle (e.eval g) (e.eval g')
  | .number _ _ | .text _ _ | .truth _ _ => .fresh rfl
  | .none _ => .pure L.absent
  | .path root fields pos => .path root fields pos.line
  | .field object name pos => by
    rw [Expr.eval, Expr.eval]
    exact (object.like_eval hg).hold fun x x' hx => .fetch hx object.describe name pos.line
  | .call object method args pos => by
    rw [Expr.eval, Expr.eval]
    apply (object.like_eval hg).hold
    intro x x' hx
    apply Run.Like.ask fun _ _ hh => hh.isInstance_eq hx
    intro found
    split
    · exact (Expr.like_evalAll hg args).bind fun xs xs' hxs => hg.call hx method hxs pos.line
    · exact .raise pos.line _
  | .construct cls args pos => by
    rw [Expr.eval, Expr.eval]
    apply (Run.Like.freshInstance cls).bind
    intro x x' hx
    apply Run.Like.keeping hx
    apply (Expr.like_evalAll hg args).bind
    intro xs xs' hxs
    rw [hxs.length_eq]
    split
    · apply (hg.call hx initName hxs pos.line).bind
      intro y y' hy
      exact (Run.Like.release hy).bind fun _ _ _ => .pure hx
    · exact (Run.Like.releaseAll hxs).bind fun _ _ _ => .pure hx
  | .stringify arg pos => by
    rw [Expr.eval, Expr.eval]
    apply (arg.like_eval hg).bind
    intro x x' hx
    apply (Run.Like.holding hx (hg.render hx pos.line)).bind
    rintro text _ rfl
    exact .fresh rfl
  | .arith op left right pos => by
    rw [Expr.eval, Expr.eval]
    apply (left.like_eval hg).bind
    intro x x' hx
    apply (Run.Like.keeping hx (right.like_eval hg)).bind
    intro y y' hy
    exact .arithmetic hg hx hy op pos.line
  | .conj left right _ => by
    rw [Expr.eval, Expr.eval]
    apply (left.like_eval hg).hold
    intro x x' hx
    apply Run.Like.ask fun _ _ hh => hh.isTrue_eq hx
    intro found
    split
    · apply (right.like_eval hg).hold
      intro y y' hy
      exact .ask (fun _ _ hh => hh.isTrue_eq hy) .truth
    · exact .truth false
  | .disj left right _ => by
    rw [Expr.eval, Expr.eval]
    apply (left.like_eval hg).hold
    intro x x' hx
    apply Run.Like.ask fun _ _ hh => hh.isTrue_eq hx
    intro found
    split
    · exact .truth true
    · apply (right.like_eval hg).hold
      intro y y' hy
      exact .ask (fun _ _ hh => hh.isTrue_eq hy) .truth
  | .compare relation left right _ => by
    rw [Expr.eval, Expr.eval]
    apply (left.like_eval hg).hold
    intro x x' hx
    apply (right.like_eval hg).hold
    intro y y' hy
    exact .ask (fun _ _ hh => hh.holds_eq hx hy relation) .truth
  | .negate operand pos => by
    rw [Expr.eval, Expr.eval]
    apply (operand.like_eval hg).hold
    intro x x' hx
    exact .compute pos.line (fun _ _ => Heap.negated_plain) fun _ _ hh => hh.negated_eq hx
  | .not operand _ => by
    rw [Expr.eval, Expr.eval]
    apply (operand.like_eval hg).hold
    intro x x' hx
    exact .ask (fun _ _ hh => hh.isTrue_eq hx) fun found => .truth !found

theorem Expr.like_evalAll (hg : g.Like L g') : ∀ es : List Expr,
    Run.Like L L.handles (Expr.evalAll g es) (Expr.evalAll g' es)
  | [] => .pure .nil
  | e :: es => by
    rw [Expr.evalAll, Expr.evalAll]
    apply (e.like_eval hg).bind
    intro x x' hx
    apply (Run.Like.keeping hx (Expr.like_evalAll hg es)).bind
    intro xs xs' hxs
    exact .pure (.cons hx hxs)

end

include hg in
theorem Expr.like_textAll (line : Nat) (es : List Expr) :
    Run.Like L Eq (Expr.textAll g line es) (Expr.textAll g' line es) := by
  induction es with
  | nil => exact .pure rfl
  | cons e es ih =>
    apply (e.like_eval hg).bind
    intro x x' hx
    apply (Run.Like.holding hx (hg.render hx line)).bind
    rintro text _ rfl
    apply ih.bind
    rintro texts _ rfl
    exact .pure rfl

/-- A value that is given to a name, or a class that is, becomes the value of the statement. -/
theorem Run.Like.bestowName {x x' : Handle} (hx : L.handle x x') (name : String) :
    Run.Like L (Completion.Like L.handle)
      (do Run.retain x; Run.assign name x; return Completion.next x)
      (do Run.retain x'; Run.assign name x'; return Completion.next x') := by
  apply (Run.Like.retain hx).bind
  intro _ _ _
  apply (Run.Like.assign hx name).bind
  intro _ _ _
  exact .pure (.next hx)

mutual

/-- A statement ends alike in states that are alike. -/
theorem Stmt.like_exec (hg : g.Like L g') : ∀ s : Stmt,
    Run.Like L (Completion.Like L.handle) (s.exec g) (s.exec g')
  | .assign name value _ => by
    rw [Stmt.exec, Stmt.exec]
    exact (value.like_eval hg).bind fun x x' hx => .bestowName hx name
  | .assignField object field value pos => by
    rw [Stmt.exec, Stmt.exec]
    apply (object.like_eval hg).hold
    intro x x' hx
    apply Run.Like.holdingInstance hx
    intro loc
    apply (value.like_eval hg).bind
    intro y y' hy
    apply (Run.Like.retain hy).bind
    intro _ _ _
    apply (Run.Like.assignField hy loc field).bind
    intro _ _ _
    exact .pure (.next hy)
  | .print args pos => by
    rw [Stmt.exec, Stmt.exec]
    apply (Expr.like_textAll hg pos.line args).bind
    rintro texts _ rfl
    apply (Run.Like.write pos.line _).bind
    intro _ _ _
    exact .pure (.next L.absent)
  | .ret (some value) _ => by
    rw [Stmt.exec, Stmt.exec]
    exact (value.like_eval hg).bind fun x x' hx => .pure (.ret hx)
  | .ret none _ => .pure (.ret L.absent)
  | .ifThen condition body _ => by
    rw [Stmt.exec, Stmt.exec]
    apply (condition.like_eval hg).hold
    intro x x' hx
    apply Run.Like.ask fun _ _ hh => hh.isTrue_eq hx
    intro found
    split
    · exact Stmt.like_execAll hg body
    · exact .pure (.next L.absent)
  | .ifElse condition body other _ => by
    rw [Stmt.exec, Stmt.exec]
    apply (condition.like_eval hg).hold
    intro x x' hx
    apply Run.Like.ask fun _ _ hh => hh.isTrue_eq hx
    intro found
    split
    · exact Stmt.like_execAll hg body
    · exact Stmt.like_execAll hg other
  | .define cls _ => by
    rw [Stmt.exec, Stmt.exec]
    exact (Run.Like.fresh rfl).bind fun x x' hx => .bestowName hx cls.name
  | .eval e => by
    rw [Stmt.exec, Stmt.exec]
    exact (e.like_eval hg).bind fun x x' hx => .pure (.next hx)

theorem Stmt.like_execAll (hg : g.Like L g') : ∀ ss : List Stmt,
    Run.Like L (Completion.Like L.handle) (Stmt.execAll g ss) (Stmt.execAll g' ss)
  | [] => .pure (.next L.absent)
  | s :: ss => by
    rw [Stmt.execAll, Stmt.execAll]
    apply (s.like_exec hg).bind
    intro done done' hdone
    cases hdone with
    | next hx => exact (Run.Like.release hx).bind fun _ _ _ => Stmt.like_execAll hg ss
    | ret hx => exact .pure (.ret hx)

end

namespace Guest

include hg

theorem like_body (method : Method) {args args' : List Handle} (hargs : L.handles args args') :
    Run.Like L L.handle (g.body method args) (g'.body method args') := by
  apply (Run.Like.assignAll method.params hargs).bind
  intro _ _ _
  apply (Stmt.like_execAll hg method.body).bind
  intro done done' hdone
  cases hdone with
  | ret hx => exact .pure hx
  | next hx => exact (Run.Like.release hx).bind fun _ _ _ => .pure L.absent

theorem like_invoke (limit : Nat) {x x' : Handle} (hx : L.handle x x') (name : String)
    {args args' : List Handle} (hargs : L.handles args args') (line : Nat) :
    Run.Like L L.handle (g.invoke limit x name args line)
      (g'.invoke limit x' name args' line) := by
  intro m m' hm
  rw [invoke_eq_around, invoke_eq_around]
  have hsame : m'.dispatch limit x' name args'.length =
      (m.dispatch limit x name args.length).map fun found => (L.place found.1, found.2) := by
    rw [← hargs.length_eq]
    exact hm.dispatch hx limit name args.length
  cases hd : m.dispatch limit x name args.length with
  | error cause =>
    rw [hd] at hsame
    rw [around_of_error hd, around_of_error hsame]
    exact .error _ (hm.withHeap (hm.heap.releaseAll hargs))
  | ok found =>
    obtain ⟨loc, method⟩ := found
    rw [hd] at hsame
    rw [around_of_ok hd, around_of_ok hsame]
    have hself : Bindings.Like L.handle ⟨[(selfName, .own loc)]⟩
        ⟨[(selfName, .own (L.place loc))]⟩ := .cons ⟨rfl, L.own loc⟩ .nil
    have hinner := (like_body hg method hargs).inScope hself
    have htwice := (Run.Like.retain (L.own loc)).bind fun _ _ _ => hinner
    have henter := (Run.Like.retain (L.own loc)).bind fun _ _ _ => htwice.holding (L.own loc)
    exact henter m m' hm

theorem like_textOf {x x' : Handle} (hx : L.handle x x') (line : Nat) :
    Run.Like L Eq (g.textOf x line) (g'.textOf x' line) :=
  (hg.call hx textName .nil line).hold fun _ _ hy => hg.render hy line

theorem like_textAt {address address' : Loc → Nat}
    (haddress : ∀ loc, address' (L.place loc) = address loc) {x x' : Handle} (hx : L.handle x x')
    (line : Nat) : Run.Like L Eq (g.textAt address x line) (g'.textAt address' x' line) := by
  intro m m' hm
  rw [textAt, textAt, seize, seize, ask_bind, ask_bind, speaker, speaker]
  have hspoken := like_textOf hg hx line
  rcases hm.heap.found hx with ⟨hnone, hnone'⟩ |
    ⟨loc, object, object', hloc, hloc', hobject, hobject', ho⟩
  · rw [hnone, hnone']
    cases x.loc? <;> cases x'.loc? <;> exact .ok rfl hm
  · rw [hloc, hloc', hobject, hobject', Option.map_some, Option.map_some, haddress]
    cases ho with
    | inst cls h =>
      simp only
      split
      · have hheld := hspoken.holding (L.own loc)
        exact ((Run.Like.retain (L.own loc)).bind fun _ _ _ => hheld) m m' hm
      · exact .ok rfl hm
    | plain h =>
      cases object with
      | inst cls fields => cases h
      | cls cls =>
        simp only [otherText]
        split
        · have hshown := (Run.Like.freshInstance cls).hold fun _ _ hy => like_textOf hg hy line
          exact hshown m m' hm
        · exact .ok rfl hm
      | _ => exact .ok rfl hm

end Guest

end Guests

/-- Requests about values that are alike end alike, on hosts that give the same addresses to what
belongs together. -/
theorem Guest.like_hosted {address address' : Loc → Nat}
    (haddress : ∀ loc, address' (L.place loc) = address loc) (limit n : Nat) :
    (hosted address limit n).Like L (hosted address' limit n) := by
  induction n with
  | zero => exact ⟨fun _ _ _ _ _ _ _ _ hm => .error _ hm, fun _ _ _ _ hm => .error _ hm⟩
  | succ n ih =>
    constructor
    · intro x x' hx name args args' hargs line
      exact like_invoke ih limit hx name hargs line
    · intro x x' hx line
      exact like_textAt ih haddress hx line

end Mython
