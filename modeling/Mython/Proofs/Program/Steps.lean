import Mython.Proofs.Program.Following
import Mython.Proofs.Program.Mentions

/-! `Steps` tells how a reader is made of few kinds of steps; the classes completed so far are
looked at by two of them and grow by a third one. -/

namespace Mython

/-- Something that happens while a text is read. -/
inductive Event where
  /-- A token is behind the reader. -/
  | reads (t : Token)
  /-- A call of a bare name is complete; the reader answers what it means. -/
  | calls (word : String) (args : List Expr) (pos : Position) (answer : Except SyntaxError Expr)
  /-- The name of a class to extend is complete; the reader answers that class. -/
  | inherits (word : String) (pos : Position) (answer : Except SyntaxError (Option Class))
  /-- A class is complete. -/
  | completes (cls : Class)

namespace Event

/-- The token that is read. -/
def token? : Event → Option Token
  | reads t => some t
  | _ => none

/-- What the text says about classes there. -/
def mention? : Event → Option Mention
  | calls _ _ _ (.ok e) => some (.makes e)
  | inherits _ _ (.ok (some cls)) => some (.inherits cls)
  | completes cls => some (.completes cls)
  | _ => none

/-- The error that reading ends with there. -/
def failure? : Event → Option SyntaxError
  | calls _ _ _ (.error e) => some e
  | inherits _ _ (.error e) => some e
  | _ => none

/-- The tokens that are read. -/
def tokens (es : List Event) : List Token := es.filterMap token?

/-- What the text says about classes. -/
def mentions (es : List Event) : List Mention := es.filterMap mention?

@[simp] theorem tokens_append (es fs : List Event) : tokens (es ++ fs) = tokens es ++ tokens fs :=
  List.filterMap_append ..

@[simp] theorem mentions_append (es fs : List Event) :
    mentions (es ++ fs) = mentions es ++ mentions fs := List.filterMap_append ..

/-- What a call of a bare name means, given the class of that name. -/
def callAnswer (word : String) (args : List Expr) (pos : Position) :
    Option Class → Except SyntaxError Expr
  | some cls => .ok (.construct cls args pos)
  | none =>
    if word = Parse.conversionName then
      match args with
      | [arg] => .ok (.stringify arg pos)
      | _ => .error ⟨.conversionArity, pos⟩
    else
      .error ⟨.unknownClass word, pos⟩

/-- What the name of a class to extend means, given the class of that name. -/
def parentAnswer (word : String) (pos : Position) :
    Option Class → Except SyntaxError (Option Class)
  | some cls => .ok (some cls)
  | none => .error ⟨.unknownClass word, pos⟩

/-- A name means what it does with some classes, the newest first. -/
def Means (known : List Class) : Event → Prop
  | calls word args pos answer =>
    answer = callAnswer word args pos (known.find? fun cls => cls.name == word)
  | inherits word pos answer =>
    answer = parentAnswer word pos (known.find? fun cls => cls.name == word)
  | reads _ | completes _ => True

end Event

namespace Parse

/-- The answer to a bare call. -/
theorem bareCall_answer (word : String) (args : List Expr) (pos : Position) (c : Cursor) :
    bareCall word args pos c = (Event.callAnswer word args pos (c.class? word)).map (·, c) := by
  rw [bareCall_eq, get_bind]
  cases c.class? word with
  | some cls => rfl
  | none =>
    rw [called, Event.callAnswer.eq_def]
    by_cases hword : word = conversionName
    · rw [if_pos hword]
      simp only [if_pos hword]
      rcases args with _ | ⟨arg, _ | ⟨_, _⟩⟩ <;> rfl
    · rw [if_neg hword]
      simp only [if_neg hword]
      rfl

/-- Looks up the class to extend. -/
def inherit (word : String) (pos : Position) : Parse (Option Class) := do
  let c ← get
  inherited word pos (c.class? word)

theorem inherit_answer (word : String) (pos : Position) (c : Cursor) :
    inherit word pos c = (Event.parentAnswer word pos (c.class? word)).map (·, c) := by
  rw [inherit, get_bind]
  cases c.class? word <;> rfl

/-- Adds a class to those that are completed. -/
def complete (cls : Class) : Parse Unit :=
  modify fun c => { c with classes := cls :: c.classes }

/-- Readers made of single steps. -/
inductive Steps : {α : Type} → Parse α → Type 1
  | look {α : Type} (f : Token → α) : Steps fun c => .ok (f c.lookahead, c)
  | stop {α : Type} (f : Token → SyntaxError) : Steps (α := α) fun c => .error (f c.lookahead)
  | advance : Steps advance
  | call (word : String) (args : List Expr) (pos : Position) : Steps (bareCall word args pos)
  | inherit (word : String) (pos : Position) : Steps (inherit word pos)
  | complete (cls : Class) : Steps (complete cls)
  | bind {α β : Type} {p : Parse α} {k : α → Parse β} (h : Steps p) (hk : ∀ a, Steps (k a)) :
    Steps (p >>= k)

/-- What happens behind a reader, if it answers. -/
def onward {α : Type} (r : Except SyntaxError (α × Cursor)) (more : α → Cursor → List Event) :
    List Event :=
  match r with
  | .ok (a, c) => more a c
  | .error _ => []

/-- What happens while a reader is at work. A reader that stays at the end reads no token. -/
def Steps.trace {α : Type} {p : Parse α} : Steps p → Cursor → List Event
  | .look _, _ | .stop _, _ => []
  | .advance, c => if c.ahead = [] then [] else [.reads c.lookahead]
  | .call word args pos, c => [.calls word args pos ((bareCall word args pos c).map Prod.fst)]
  | .inherit word pos, c => [.inherits word pos ((Parse.inherit word pos c).map Prod.fst)]
  | .complete cls, _ => [.completes cls]
  | .bind (p := p) h hk, c => h.trace c ++ onward (p c) fun a c' => (hk a).trace c'

end Parse

namespace Cursor

/-- A cursor has moved behind what happened: the tokens that were read and the classes that were
completed meanwhile. -/
structure Behind (es : List Event) (c c' : Cursor) : Prop where
  tokens : c.tokens = Event.tokens es ++ c'.tokens
  fault : c'.fault = c.fault
  classes : c'.classes = Mention.completed (Event.mentions es) ++ c.classes

theorem Behind.refl (c : Cursor) : Behind [] c c := ⟨rfl, rfl, rfl⟩

theorem Behind.trans {es fs : List Event} {c c' c'' : Cursor} (h : Behind es c c')
    (h' : Behind fs c' c'') : Behind (es ++ fs) c c'' where
  tokens := by rw [h.tokens, h'.tokens, Event.tokens_append, List.append_assoc]
  fault := h'.fault.trans h.fault
  classes := by
    rw [h'.classes, h.classes, Event.mentions_append, Mention.completed_append, List.append_assoc]

end Cursor

namespace Parse

open Cursor (Behind)

variable {α β : Type} {p : Parse α} {k : α → Parse β} {c : Cursor} {es : List Event}

/-- What is told of a reader that starts at a cursor: the tokens it reads are the next ones, every
name means what it does with the classes completed in front of it, and with an error at a name the
reader gives up. -/
structure Told (c : Cursor) (es : List Event) (r : Except SyntaxError (α × Cursor)) : Prop where
  behind : ∀ ⦃a c'⦄, r = .ok (a, c') → Behind es c c'
  read : Event.tokens es <+: c.tokens
  means : Throughout
    (fun front => Event.Means (Mention.completed (Event.mentions front) ++ c.classes)) es
  fails : ∀ e ∈ es, ∀ err, e.failure? = some err → r = .error err

namespace Told

theorem nothing {r : Except SyntaxError (α × Cursor)} (h : ∀ a c', r = .ok (a, c') → c = c') :
    Told c [] r where
  behind := by
    intro a c' hr
    rw [h a c' hr]
    exact .refl c'
  read := List.nil_prefix
  means := .nil
  fails := by simp

theorem bind {more : α → Cursor → List Event} (h : Told c es (p c))
    (hk : ∀ a c', p c = .ok (a, c') → Told c' (more a c') (k a c')) :
    Told c (es ++ onward (p c) more) ((p >>= k) c) := by
  cases hp : p c with
  | error e =>
    rw [bind_of_error hp, onward, List.append_nil]
    rw [hp] at h
    refine ⟨?_, h.read, h.means, ?_⟩
    · rintro a c' ⟨⟩
    · intro ev hev err herr
      rw [Except.error.inj (h.fails ev hev err herr)]
  | ok r =>
    obtain ⟨a, c'⟩ := r
    have hmore := hk a c' hp
    have hbehind := h.behind hp
    rw [bind_of_ok hp]
    refine ⟨?_, ?_, ?_, ?_⟩
    · intro b c'' hb
      exact hbehind.trans (hmore.behind hb)
    · rw [Event.tokens_append, hbehind.tokens, List.prefix_append_right_inj]
      exact hmore.read
    · refine h.means.append (hmore.means.mono fun front e _ he => ?_)
      rwa [Event.mentions_append, Mention.completed_append, List.append_assoc, ← hbehind.classes]
    · intro ev hev err herr
      rcases List.mem_append.1 hev with hev | hev
      · have hfail := h.fails ev hev err herr
        rw [hp] at hfail
        cases hfail
      · exact hmore.fails ev hev err herr

end Told

theorem told_advance (c : Cursor) :
    Told c (if c.ahead = [] then [] else [.reads c.lookahead]) (advance c) := by
  obtain ⟨t, ts, fault, classes⟩ := c
  cases ts with
  | nil =>
    rw [if_pos rfl]
    refine Told.nothing fun a c' h => ?_
    cases fault <;> cases h
    rfl
  | cons u us =>
    rw [if_neg (List.cons_ne_nil u us)]
    refine ⟨?_, ⟨u :: us, rfl⟩, .singleton trivial, ?_⟩
    · rintro a c' ⟨⟩
      exact ⟨rfl, rfl, rfl⟩
    · intro ev hev err herr
      rw [List.mem_singleton.1 hev] at herr
      cases herr

theorem map_fst_answer (r : Except SyntaxError α) (c : Cursor) :
    (r.map (·, c)).map Prod.fst = r := by
  cases r <;> rfl

theorem told_call (word : String) (args : List Expr) (pos : Position) (c : Cursor) :
    Told c [.calls word args pos ((bareCall word args pos c).map Prod.fst)]
      (bareCall word args pos c) := by
  rw [bareCall_answer, map_fst_answer]
  generalize hanswer : Event.callAnswer word args pos (c.class? word) = answer
  refine ⟨?_, List.nil_prefix, .singleton hanswer.symm, ?_⟩
  · intro a c' h
    cases answer <;> cases h
    exact ⟨rfl, rfl, rfl⟩
  · simp only [List.mem_singleton, forall_eq]
    cases answer <;> rintro err ⟨⟩
    rfl

theorem told_inherit (word : String) (pos : Position) (c : Cursor) :
    Told c [.inherits word pos ((inherit word pos c).map Prod.fst)] (inherit word pos c) := by
  rw [inherit_answer, map_fst_answer]
  generalize hanswer : Event.parentAnswer word pos (c.class? word) = answer
  refine ⟨?_, List.nil_prefix, .singleton hanswer.symm, ?_⟩
  · intro a c' h
    rcases answer with _ | _ | _ <;> cases h <;> exact ⟨rfl, rfl, rfl⟩
  · simp only [List.mem_singleton, forall_eq]
    cases answer <;> rintro err ⟨⟩
    rfl

theorem told_complete (cls : Class) (c : Cursor) :
    Told c [.completes cls] (complete cls c) := by
  refine ⟨?_, List.nil_prefix, .singleton trivial, ?_⟩
  · rintro a c' ⟨⟩
    exact ⟨rfl, rfl, rfl⟩
  · simp only [List.mem_singleton, forall_eq]
    rintro err ⟨⟩

/-- What is told by the steps of a reader. -/
theorem Steps.told (h : Steps p) (c : Cursor) : Told c (h.trace c) (p c) := by
  induction h generalizing c with
  | look f => exact .nothing fun a c' h => by cases h; rfl
  | stop f => exact .nothing fun a c' h => by cases h
  | advance => exact told_advance c
  | call word args pos => exact told_call word args pos c
  | inherit word pos => exact told_inherit word pos c
  | complete cls => exact told_complete cls c
  | bind h hk ih ihk => exact (ih c).bind fun a c' _ => ihk a c'

end Parse

end Mython
