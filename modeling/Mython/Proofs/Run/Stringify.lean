import Mython.Proofs.Run.Likeness
import Mython.Proofs.Session.Boundary
import Mython.Proofs.Store.Gap

namespace Mython

open Run

/-- Evaluates an expression and puts its value into text, reporting a given line. -/
def Expr.shown (g : Guest) (line : Nat) (e : Expr) : Run String := do
  let x ← e.eval g
  holding x (g.render x line)

/-- Makes an object and lets go of it at once. -/
def Run.spend (object : Object) : Run Unit :=
  change fun h => (h.alloc object).2.release (.own h.size)

/-- How a value is put into text. -/
def Expr.shownScript (line : Nat) (e : Expr) : Script 0 (fun g => e.shown g line) fun _ => 0 :=
  e.script.bind fun x => (Script.render x line).holdingIt x

/-- The texts of arguments, one after another: each argument is evaluated and put into text before
the next one is evaluated. -/
inductive Expr.Shows (g : Guest) (line : Nat) :
    List Expr → Machine → List String → Machine → Prop
  | nil (m : Machine) : Shows g line [] m [] m
  | cons {e : Expr} {es : List Expr} {x : Handle} {text : String} {texts : List String}
      {m m₁ m₂ m₃ : Machine} (heval : e.eval g m = (.ok x, m₁))
      (htext : holding x (g.render x line) m₁ = (.ok text, m₂))
      (hrest : Shows g line es m₂ texts m₃) : Shows g line (e :: es) m (text :: texts) m₃

/-- What a print statement does when some of its arguments have been put into text. -/
def Stmt.printRest (g : Guest) (line : Nat) (texts : List String) (args : List Expr) :
    Run Completion := do
  let others ← Expr.textAll g line args
  write line (" ".intercalate (texts ++ others) ++ "\n")
  return .next .absent

section Texts

variable (g : Guest) (line : Nat)

theorem Expr.textAll_cons (e : Expr) (es : List Expr) :
    Expr.textAll g line (e :: es) = (do
      let text ← e.shown g line
      let texts ← Expr.textAll g line es
      return text :: texts) := by
  rw [Expr.textAll, Expr.shown, bind_assoc]

theorem Expr.textAll_append (es fs : List Expr) :
    Expr.textAll g line (es ++ fs) = (do
      let texts ← Expr.textAll g line es
      let others ← Expr.textAll g line fs
      return texts ++ others) := by
  induction es with
  | nil =>
    rw [List.nil_append, Expr.textAll, pure_bind]
    exact (bind_pure _).symm
  | cons e es ih =>
    rw [List.cons_append, Expr.textAll_cons, Expr.textAll_cons, ih]
    simp only [bind_assoc, pure_bind, List.cons_append]

theorem Expr.textAll_snoc (es : List Expr) (e : Expr) :
    Expr.textAll g line (es ++ [e]) = (do
      let texts ← Expr.textAll g line es
      let text ← e.shown g line
      return texts ++ [text]) := by
  rw [Expr.textAll_append, Expr.textAll_cons, Expr.textAll]
  simp only [bind_assoc, pure_bind]

theorem Expr.eval_stringify (e : Expr) (pos : Position) :
    (Expr.stringify e pos).eval g = (do
      let text ← e.shown g pos.line
      fresh (.text text)) := by
  rw [Expr.eval, Expr.shown, bind_assoc]

theorem Stmt.exec_print_append (es fs : List Expr) (pos : Position) :
    (Stmt.print (es ++ fs) pos).exec g = (do
      let texts ← Expr.textAll g pos.line es
      Stmt.printRest g pos.line texts fs) := by
  rw [Stmt.exec, Expr.textAll_append]
  simp only [Stmt.printRest, bind_assoc, pure_bind]

/-- The texts of arguments are found exactly if each one is found in turn. -/
theorem Expr.textAll_eq_ok {es : List Expr} {m m' : Machine} {texts : List String} :
    Expr.textAll g line es m = (.ok texts, m') ↔ Expr.Shows g line es m texts m' := by
  constructor
  · intro h
    induction es generalizing m texts with
    | nil =>
      cases h
      exact .nil _
    | cons e es ih =>
      rw [Expr.textAll] at h
      rcases hx : e.eval g m with ⟨_ | x, m₁⟩
      · rw [bind_of_error hx] at h
        cases h
      rw [bind_of_ok hx] at h
      rcases ht : holding x (g.render x line) m₁ with ⟨_ | text, m₂⟩
      · rw [bind_of_error ht] at h
        cases h
      rw [bind_of_ok ht] at h
      rcases hs : Expr.textAll g line es m₂ with ⟨_ | others, m₃⟩
      · rw [bind_of_error hs] at h
        cases h
      rw [bind_of_ok hs] at h
      cases h
      exact .cons hx ht (ih hs)
  · intro h
    induction h with
    | nil m => rfl
    | cons heval htext _ ih =>
      rw [Expr.textAll, bind_of_ok heval, bind_of_ok htext, bind_of_ok ih]
      rfl

/-- A print statement succeeds exactly if its arguments are put into text one after another and the
sink takes these texts, joined by spaces and ended by a line break. -/
theorem Stmt.print_eq_ok {args : List Expr} {pos : Position} {m m' : Machine} {r : Completion} :
    (Stmt.print args pos).exec g m = (.ok r, m') ↔ ∃ texts m₁ sink,
      Expr.Shows g pos.line args m texts m₁ ∧
      m₁.sink.write? (" ".intercalate texts ++ "\n") = some sink ∧
      r = .next .absent ∧ m' = { m₁ with sink } := by
  simp only [← Expr.textAll_eq_ok]
  rw [Stmt.exec]
  constructor
  · intro h
    rcases ht : Expr.textAll g pos.line args m with ⟨_ | texts, m₁⟩
    · rw [bind_of_error ht] at h
      cases h
    rw [bind_of_ok ht] at h
    cases hw : m₁.sink.write? (" ".intercalate texts ++ "\n") with
    | none =>
      rw [bind_of_error (write_of_none hw)] at h
      cases h
    | some sink =>
      rw [bind_of_ok (write_of_some hw)] at h
      cases h
      exact ⟨texts, m₁, sink, rfl, hw, rfl, rfl⟩
  · rintro ⟨texts, m₁, sink, ht, hw, rfl, rfl⟩
    rw [bind_of_ok ht, bind_of_ok (write_of_some hw)]
    rfl

end Texts

section Stringify

variable {address : Loc → Nat} {limit n line : Nat}

/-- Nothing is put into text without fuel. -/
theorem Expr.pos_of_shown {e : Expr} {m m₁ : Machine} {text : String}
    (h : e.shown (.hosted address limit n) line m = (.ok text, m₁)) : 0 < n := by
  cases n with
  | succ n => exact Nat.succ_pos n
  | zero =>
    rw [Expr.shown] at h
    rcases hx : e.eval (.hosted address limit 0) m with ⟨_ | x, m₂⟩
    · rw [bind_of_error hx] at h
      cases h
    · rw [bind_of_ok hx] at h
      cases h

/-- A text that is there is put into text as it is. -/
theorem Guest.hosted_render_text (hn : 0 < n) {x : Handle} {m : Machine} {content : String}
    (hx : m.heap.object? x = some (.text content)) :
    (hosted address limit n).render x line m = (.ok content, m) := by
  cases n with
  | zero => cases hn
  | succ n =>
    show (hosted address limit n).textAt address x line m = _
    have hspeaker : speaker x m.heap = .error (some (.text content)) := by
      rw [speaker, hx]
      cases x.loc? <;> rfl
    rw [textAt, seize_of_error hspeaker]
    cases hloc : x.loc? with
    | none =>
      rw [Heap.object?, hloc] at hx
      cases hx
    | some loc => rfl

/-- The text of a text that was made for it is that text, and what was made is gone again. -/
theorem Expr.shown_stringify (e : Expr) (inner : Position) (m : Machine) :
    (Expr.stringify e inner).shown (.hosted address limit n) line m =
      (do
        let text ← e.shown (.hosted address limit n) inner.line
        spend (.text text)
        return text : Run String) m := by
  rw [Expr.shown, Expr.eval_stringify, bind_assoc]
  rcases hs : e.shown (.hosted address limit n) inner.line m with ⟨_ | text, m₁⟩
  · rw [bind_of_error hs, bind_of_error hs]
  rw [bind_of_ok hs, bind_of_ok hs]
  have hfresh : fresh (.text text) m₁ =
      (.ok (.own m₁.heap.size), { m₁ with heap := (m₁.heap.alloc (.text text)).2 }) := rfl
  have hthere : (m₁.heap.alloc (.text text)).2.object? (.own m₁.heap.size) =
      some (.text text) := by
    rw [Heap.object?_eq_get? rfl, Heap.get?_alloc, if_pos rfl]
  have hagain : (Guest.hosted address limit n).render (.own m₁.heap.size) line
      { m₁ with heap := (m₁.heap.alloc (.text text)).2 } =
        (.ok text, { m₁ with heap := (m₁.heap.alloc (.text text)).2 }) :=
    Guest.hosted_render_text (Expr.pos_of_shown hs) hthere
  rw [bind_of_ok hfresh, holding, hagain]
  rfl

/-- The arguments up to one that is put into text before it is printed: the texts are the same, and
if there are any, one object more has come and gone. -/
theorem Expr.textAll_stringify (before : List Expr) (e : Expr) {inner : Position}
    (hline : inner.line = line) (m : Machine) :
    (∃ halt m₁,
      Expr.textAll (.hosted address limit n) line (before ++ [e]) m = (.error halt, m₁) ∧
      Expr.textAll (.hosted address limit n) line (before ++ [.stringify e inner]) m =
        (.error halt, m₁)) ∨
    ∃ texts text m₁,
      Expr.textAll (.hosted address limit n) line (before ++ [e]) m = (.ok texts, m₁) ∧
      Expr.textAll (.hosted address limit n) line (before ++ [.stringify e inner]) m =
        (.ok texts, (spend (.text text) m₁).2) := by
  subst hline
  rw [Expr.textAll_snoc, Expr.textAll_snoc]
  rcases ht : Expr.textAll (.hosted address limit n) inner.line before m with ⟨halt | texts, m₁⟩
  · exact Or.inl ⟨halt, m₁, bind_of_error ht, bind_of_error ht⟩
  rw [bind_of_ok ht, bind_of_ok ht]
  have hshown : (Expr.stringify e inner).shown (.hosted address limit n) inner.line m₁ = _ :=
    Expr.shown_stringify e inner m₁
  rcases hs : e.shown (.hosted address limit n) inner.line m₁ with ⟨halt | text, m₂⟩
  · rw [bind_of_error hs] at hshown
    exact Or.inl ⟨halt, m₂, bind_of_error hs, bind_of_error hshown⟩
  · rw [bind_of_ok hs] at hshown
    exact Or.inr ⟨texts ++ [text], text, m₂, bind_of_ok hs, bind_of_ok hshown⟩

/-- A text that comes and goes leaves a settled state as it was, but for the place of the text. -/
theorem Machine.Settled.like_spent {m : Machine} {held : Multiset Handle} (hm : m.Settled held)
    (content : String) : m.Like (.gap m.heap.size) (spend (.text content) m).2 where
  heap := Heap.Settled.like_spent hm rfl
  scope := by
    apply Bindings.Like.of_forall
    intro x hx
    exact (hm.usable_of_scope hx).skip_eq.symm
  sink := rfl
  depth := rfl

/-- Arguments that follow are printed alike where an object more has come and gone, on hosts that
give the same addresses to what belongs together. -/
theorem Stmt.like_printRest {L : Likeness} {address' : Loc → Nat}
    (haddress : ∀ loc, address' (L.place loc) = address loc) (texts : List String)
    (args : List Expr) :
    Run.Like L Eq (printRest (.hosted address limit n) line texts args)
      (printRest (.hosted address' limit n) line texts args) := by
  apply (Expr.like_textAll (Guest.like_hosted haddress limit n) line args).bind
  rintro others _ rfl
  apply (Run.Like.write line _).bind
  intro _ _ _
  exact .pure rfl

/-- How a print statement ends with the text of an argument in place of the argument, where `front`
tells how the arguments up to this one are put into text: with the same result and the same writes,
and in the same state but for a place that has been used and is empty again. -/
def Stmt.PrintsAlike (front : Except Halt (List String) × Machine)
    (plain spoken : Except Halt Completion × Machine) : Prop :=
  spoken.1 = plain.1 ∧ spoken.2.sink = plain.2.sink ∧
    ((∃ halt, front.1 = .error halt) ∧ spoken = plain ∨
      (∃ texts, front.1 = .ok texts) ∧ plain.2.Like (.gap front.2.heap.size) spoken.2)

/-- An expression is printed as its text is. -/
theorem Stmt.print_like (address : Loc → Nat) (limit n : Nat) (before after : List Expr) (e : Expr)
    {pos inner : Position} (hline : inner.line = pos.line) {m : Machine} {held : Multiset Handle}
    (hm : m.Settled held) {address' : Loc → Nat}
    (haddress : ∀ loc, address' (Loc.skip
      (Expr.textAll (.hosted address limit n) pos.line (before ++ [e]) m).2.heap.size loc) =
        address loc) :
    let front := Expr.textAll (.hosted address limit n) pos.line (before ++ [e]) m
    let plain := (Stmt.print (before ++ e :: after) pos).exec (.hosted address limit n) m
    let spoken := (Stmt.print (before ++ .stringify e inner :: after) pos).exec
      (.hosted address' limit n) m
    PrintsAlike front plain spoken := by
  intro front plain spoken
  have hplain : plain = (do
      let texts ← Expr.textAll (.hosted address limit n) pos.line (before ++ [e])
      printRest (.hosted address limit n) pos.line texts after : Run Completion) m := by
    rw [← Stmt.exec_print_append, List.append_assoc]
    rfl
  have hspoken : spoken = (do
      let texts ← Expr.textAll (.hosted address' limit n) pos.line (before ++ [.stringify e inner])
      printRest (.hosted address' limit n) pos.line texts after : Run Completion) m := by
    rw [← Stmt.exec_print_append, List.append_assoc]
    rfl
  -- Up to the text of the expression, only places in front of the one left out have been used.
  have hagrees : Expr.textAll (.hosted address' limit n) pos.line (before ++ [e]) m = front :=
    (Expr.textAllScript pos.line (before ++ [e])).agrees_hosted
      (fun _ => Loc.eq_of_skip haddress) limit n m le_rfl
  rcases Expr.textAll_stringify before e hline m with ⟨halt, m₁, hfront, hfront'⟩ |
    ⟨texts, text, m₁, hfront, hfront'⟩
  · have hends : front = (.error halt, m₁) := hagrees.symm.trans hfront
    rw [bind_of_error hends] at hplain
    rw [bind_of_error hfront'] at hspoken
    have hsame : spoken = plain := hspoken.trans hplain.symm
    exact ⟨congrArg (·.1) hsame, congrArg (·.2.sink) hsame,
      Or.inl ⟨⟨halt, congrArg (·.1) hends⟩, hsame⟩⟩
  · have hends : front = (.ok texts, m₁) := hagrees.symm.trans hfront
    have hsettled := (Expr.textAllScript pos.line (before ++ [e])).settled_hosted hm hends
    have hk : front.2.heap.size = m₁.heap.size := by rw [hends]
    have hlike := hsettled.like_spent text
    rw [bind_of_ok hends] at hplain
    rw [bind_of_ok hfront'] at hspoken
    rw [hk] at haddress
    have hrest : EndLike (.gap m₁.heap.size) Eq
        (printRest (.hosted address limit n) pos.line texts after m₁)
        (printRest (.hosted address' limit n) pos.line texts after (spend (.text text) m₁).2) :=
      Stmt.like_printRest haddress texts after m₁ _ hlike
    rw [← hplain, ← hspoken] at hrest
    have hleft := hrest.like
    rw [← hk] at hleft
    exact ⟨hrest.result_eq, hleft.sink, Or.inr ⟨⟨texts, congrArg (·.1) hends⟩, hleft⟩⟩

/-- A text is put into text as it is. -/
theorem Expr.stringify_twice (address : Loc → Nat) (limit n : Nat) (e : Expr)
    (inner outer : Position) {m : Machine} {held : Multiset Handle} (hm : m.Settled held) :
    let once := (Expr.stringify e inner).eval (.hosted address limit n) m
    let twice := (Expr.stringify (.stringify e inner) outer).eval (.hosted address limit n) m
    (∃ halt, once.1 = .error halt ∧ twice = once) ∨
      ∃ k content, once.1 = .ok (.own k) ∧ twice.1 = .ok (.own (Loc.skip k k)) ∧
        once.2.heap.get? k = some (.text content) ∧
        twice.2.heap.get? (Loc.skip k k) = some (.text content) ∧
        once.2.Like (.gap k) twice.2 := by
  intro once twice
  have honce : once = (do
      let text ← e.shown (.hosted address limit n) inner.line
      fresh (.text text) : Run Handle) m := by
    rw [← Expr.eval_stringify]
  have hshown : (Expr.stringify e inner).shown (.hosted address limit n) outer.line m = _ :=
    Expr.shown_stringify e inner m
  have htwice : twice = (do
      let text ← (Expr.stringify e inner).shown (.hosted address limit n) outer.line
      fresh (.text text) : Run Handle) m := by
    rw [← Expr.eval_stringify]
  rcases hs : e.shown (.hosted address limit n) inner.line m with ⟨halt | text, m₁⟩
  · rw [bind_of_error hs] at honce hshown
    rw [bind_of_error hshown] at htwice
    exact Or.inl ⟨halt, congrArg (·.1) honce, htwice.trans honce.symm⟩
  · have hlike := ((e.shownScript inner.line).settled_hosted hm hs).like_spent text
    have hends : EndLike _ _ (fresh (.text text) m₁)
        (fresh (.text text) (spend (.text text) m₁).2) :=
      Run.Like.fresh rfl m₁ _ hlike
    have hplace : (spend (.text text) m₁).2.heap.size = Loc.skip m₁.heap.size m₁.heap.size :=
      (Likeness.gap _).size hlike.heap.besides
    rw [bind_of_ok hs] at honce hshown
    have hafter : (Expr.stringify e inner).shown (.hosted address limit n) outer.line m =
        (.ok text, (spend (.text text) m₁).2) := hshown
    rw [bind_of_ok hafter] at htwice
    rw [← honce, ← htwice] at hends
    refine Or.inr ⟨m₁.heap.size, text, ?_, ?_, ?_, ?_, ?_⟩
    · exact congrArg (·.1) honce
    · rw [← hplace]
      exact congrArg (·.1) htwice
    · rw [honce]
      exact (Heap.get?_alloc _ _ _).trans (if_pos rfl)
    · rw [← hplace, htwice]
      exact (Heap.get?_alloc _ _ _).trans (if_pos rfl)
    · exact hends.like

end Stringify

/-- What an expression is printed as is its text. Printing the text of an expression in place of the
expression, among any arguments, ends in the same way, with the same result or halt and the same
writes, on hosts that give the same addresses to what belongs together. It leaves the same state if
it halts before the text is there. Otherwise the states differ in one place, where a text has been
made and which is empty again: they are alike when that place is left out. Likewise, to put a text
into text once more gives the same text. A print statement succeeds exactly if its arguments are
evaluated and put into text one after another, and it writes these texts joined by spaces and ended
by a line break. A host where places are their own addresses is the guest that programs are run
with, as `Guest.hosted_id` says; `Stmt.print_same_host` is about one and the same host. -/
theorem Stmt.print_stringify (address : Loc → Nat) (limit n : Nat) (before after : List Expr)
    (e : Expr) {pos inner : Position} (hline : inner.line = pos.line) (outer : Position)
    {m : Machine} {held : Multiset Handle} (hm : m.Settled held) :
    let g := Guest.hosted address limit n
    let front := Expr.textAll g pos.line (before ++ [e]) m
    let k := front.2.heap.size
    let plain := (Stmt.print (before ++ e :: after) pos).exec g m
    let once := (Expr.stringify e inner).eval g m
    let twice := (Expr.stringify (.stringify e inner) outer).eval g m
    (∀ address', (∀ loc, address' (Loc.skip k loc) = address loc) →
      let spoken := (Stmt.print (before ++ .stringify e inner :: after) pos).exec
        (.hosted address' limit n) m
      spoken.1 = plain.1 ∧ spoken.2.sink = plain.2.sink ∧
        ((∃ halt, front.1 = .error halt) ∧ spoken = plain ∨
          (∃ texts, front.1 = .ok texts) ∧ plain.2.Like (.gap k) spoken.2)) ∧
    ((∃ halt, once.1 = .error halt ∧ twice = once) ∨
      ∃ k content, once.1 = .ok (.own k) ∧ twice.1 = .ok (.own (Loc.skip k k)) ∧
        once.2.heap.get? k = some (.text content) ∧
        twice.2.heap.get? (Loc.skip k k) = some (.text content) ∧
        once.2.Like (.gap k) twice.2) ∧
    ∀ (g : Guest) (args : List Expr) (r : Completion) (m' : Machine),
      (Stmt.print args pos).exec g m = (.ok r, m') ↔ ∃ texts m₁ sink,
        Expr.Shows g pos.line args m texts m₁ ∧
        m₁.sink.write? (" ".intercalate texts ++ "\n") = some sink ∧
        r = .next .absent ∧ m' = { m₁ with sink } := by
  intro g front k plain once twice
  refine ⟨?_, Expr.stringify_twice address limit n e inner outer hm, ?_⟩
  · intro address' haddress
    exact Stmt.print_like address limit n before after e hline hm haddress
  · intro g args r m'
    exact Stmt.print_eq_ok g

/-- A class that does not say how its instances are put into text. -/
def Class.plain : Class := ⟨"C", [], none⟩

/-- A number printed in front of a new instance, and its text in place of it. The instance is then
stored one place further on, where the other host has the same address. -/
theorem Stmt.print_stringify_plain :
    ((Stmt.print [.number 1 .start, .construct .plain [] .start] .start).exec (.within 5 2)
      (.start .endless)).2.sink.written = #["1 <C object at 0x1>\n"] ∧
    ((Stmt.print [.stringify (.number 1 .start) .start, .construct .plain [] .start] .start).exec
      (.hosted (fun loc => loc - 1) 5 2) (.start .endless)).2.sink.written =
        #["1 <C object at 0x1>\n"] := by
  have hline : Position.start.line = Position.start.line := rfl
  have hrun := Stmt.print_stringify id 5 2 [] [.construct .plain [] .start] (.number 1 .start)
    hline .start (Machine.start_settled .endless)
  have hplain : ((Stmt.print [.number 1 .start, .construct .plain [] .start] .start).exec
      (.hosted id 5 2) (.start .endless)).2.sink.written = #["1 <C object at 0x1>\n"] := by rfl
  have hhost : ∀ loc, Loc.skip 1 loc - 1 = loc := by
    intro loc
    cases loc with
    | zero => rfl
    | succ loc => rw [Loc.skip_of_le (Nat.le_add_left 1 loc), Nat.add_sub_cancel]
  have hsink := (hrun.1 (fun loc => loc - 1) hhost).2.1
  exact ⟨by rfl, (congrArg Sink.written hsink).trans hplain⟩

section SameHost

variable {limit n : Nat} {before after : List Expr} {e : Expr} {pos inner : Position} {m : Machine}
  {held : Multiset Handle}

/-- On one and the same host an expression is printed as its text is, if nothing behind the text is
shown by its address: where every place behind the text has the address of the next one, the
statement does the same. -/
theorem Stmt.print_same_host {address shifted : Loc → Nat} (hline : inner.line = pos.line)
    (hm : m.Settled held)
    (haddress : ∀ loc, address (Loc.skip
      (Expr.textAll (.hosted address limit n) pos.line (before ++ [e]) m).2.heap.size loc) =
        shifted loc)
    (hshown : (Stmt.print (before ++ e :: after) pos).exec (.hosted shifted limit n) m =
      (Stmt.print (before ++ e :: after) pos).exec (.hosted address limit n) m) :
    PrintsAlike (Expr.textAll (.hosted address limit n) pos.line (before ++ [e]) m)
      ((Stmt.print (before ++ e :: after) pos).exec (.hosted address limit n) m)
      ((Stmt.print (before ++ .stringify e inner :: after) pos).exec (.hosted address limit n)
        m) := by
  have hagrees : Expr.textAll (.hosted shifted limit n) pos.line (before ++ [e]) m =
      Expr.textAll (.hosted address limit n) pos.line (before ++ [e]) m :=
    (Expr.textAllScript pos.line (before ++ [e])).agrees_hosted
      (fun _ hloc => (Loc.eq_of_skip haddress hloc).symm) limit n m le_rfl
  rw [← hagrees] at haddress
  have hlike := Stmt.print_like shifted limit n before after e hline hm haddress
  rwa [hagrees, hshown] at hlike

/-- So it is where nothing is made behind the text, with the guest that programs are run with. -/
theorem Stmt.print_nothing_behind (hline : inner.line = pos.line) (hm : m.Settled held)
    (hnone : ((Stmt.print (before ++ e :: after) pos).exec (.within limit n) m).2.heap.size ≤
      (Expr.textAll (.within limit n) pos.line (before ++ [e]) m).2.heap.size) :
    PrintsAlike (Expr.textAll (.within limit n) pos.line (before ++ [e]) m)
      ((Stmt.print (before ++ e :: after) pos).exec (.within limit n) m)
      ((Stmt.print (before ++ .stringify e inner :: after) pos).exec (.within limit n) m) := by
  rw [← Guest.hosted_id] at hnone ⊢
  apply Stmt.print_same_host hline hm fun _ => rfl
  apply (Stmt.print (before ++ e :: after) pos).script.agrees_hosted _ limit n m hnone
  intro loc hloc
  exact congrArg id (Loc.skip_of_lt hloc)

/-- The last argument is printed as its text is. -/
theorem Stmt.print_last (hline : inner.line = pos.line) (hm : m.Settled held) :
    PrintsAlike (Expr.textAll (.within limit n) pos.line (before ++ [e]) m)
      ((Stmt.print (before ++ [e]) pos).exec (.within limit n) m)
      ((Stmt.print (before ++ [.stringify e inner]) pos).exec (.within limit n) m) := by
  apply Stmt.print_nothing_behind hline hm
  rcases hfront : Expr.textAll (.within limit n) pos.line (before ++ [e]) m with ⟨halt | texts, m₁⟩
  · rw [Stmt.exec, bind_of_error hfront]
  · rw [Stmt.exec, bind_of_ok hfront]
    cases hw : m₁.sink.write? (" ".intercalate texts ++ "\n") with
    | none =>
      rw [bind_of_error (write_of_none hw)]
    | some sink =>
      rw [bind_of_ok (write_of_some hw)]
      exact le_rfl

end SameHost

end Mython
