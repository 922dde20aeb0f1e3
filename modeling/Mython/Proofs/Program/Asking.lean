import Mython.Proofs.Program.Progress
import Mython.Proofs.Program.Telling
import Mython.Proofs.Token.Requests

namespace Mython

/-- A scanner that hands out tokens to a reader, and what is kept beside it. -/
structure Desk where
  scanner : Scanner
  /-- The classes completed so far, the newest first. -/
  classes : List Class
  /-- How many tokens have been asked for. -/
  requests : Nat

/-- Readers that ask for their tokens. The lookahead is the token handed out last. -/
abbrev Live := ExceptT SyntaxError (StateM Desk)

namespace Live

/-- Asks for a token, which becomes the lookahead. -/
def ask : Live Unit := fun d =>
  let answer := d.scanner.next
  (answer.1.map fun _ => (), { d with scanner := answer.2, requests := d.requests + 1 })

/-- Answers what depends on the newest completed class of a given name. -/
def find (name : String) (answer : Option Class → Except SyntaxError α) : Live α := fun d =>
  (answer (d.classes.find? fun k => k.name == name), d)

variable {f : Live α} {k : α → Live β} {d d' : Desk}

theorem bind_of_ok {a : α} (h : f d = (.ok a, d')) : (f >>= k) d = k a d' := by
  simp only [bind, ExceptT.bind, ExceptT.mk, StateT.bind, h]
  rfl

theorem bind_of_error {e : SyntaxError} (h : f d = (.error e, d')) :
    (f >>= k) d = (.error e, d') := by
  simp only [bind, ExceptT.bind, ExceptT.mk, StateT.bind, h]
  rfl

end Live

namespace Parse

/-- The reader that does the same steps and asks for its tokens. -/
def Steps.live {α : Type} {p : Parse α} : Steps p → Live α
  | .look f => fun d => (.ok (f d.scanner.current), d)
  | .stop f => fun d => (.error (f d.scanner.current), d)
  | .advance => Live.ask
  | .call word args pos => Live.find word (Event.callAnswer word args pos)
  | .inherit word pos => Live.find word (Event.parentAnswer word pos)
  | .complete cls => fun d => (.ok (), { d with classes := cls :: d.classes })
  | .bind h hk => h.live >>= fun a => (hk a).live

end Parse

/-- Reads a program: asks for the first token, and then for each one that is needed. -/
def Live.program (bound : Nat) : Live Program := do
  Live.ask
  (Parse.Account.program bound).steps.live

/-- The desk in front of a text. -/
def Desk.ofSource (source : String) : Desk := ⟨.ofSource source, [], 0⟩

/-- The scanner gives some tokens, and then an error, unless nobody asks for more. -/
inductive Scanner.Supplies : Scanner → List Token → Option SyntaxError → Prop
  | ended (s : Scanner) : Supplies s [] none
  | fails {s u : Scanner} {e : SyntaxError} (h : s.next = (.error e, u)) : Supplies s [] (some e)
  | gives {s u : Scanner} {t : Token} {ts : List Token} {fault : Option SyntaxError}
      (h : s.next = (.ok t, u)) (hrest : Supplies u ts fault) : Supplies s (t :: ts) fault

namespace Scanner

variable {s u : Scanner} {t : Token} {seen ts : List Token} {fault : Option SyntaxError}

theorem current_of_next (h : s.next = (.ok t, u)) : u.current = t := by
  rcases s.advances_or_fails with ⟨t', u', ha⟩ | ⟨e, hf⟩
  · rw [ha.next_eq] at h
    cases h
    exact ha.current_eq
  · obtain ⟨v, hnext⟩ := hf.next_eq
    rw [hnext] at h
    cases h

theorem Reads.supplies (hr : s.Reads seen u) (h : u.Supplies ts fault) :
    s.Supplies (seen ++ ts) fault := by
  induction hr generalizing ts with
  | refl => exact h
  | snoc _ ha _ ih =>
    rw [List.append_assoc]
    exact ih (.gives ha.next_eq h)

/-- The tokens of a text are supplied by the scanner in front of it. -/
theorem supplies_ofSource (source : String) :
    (Scanner.ofSource source).Supplies (TokenStream.ofSource source).tokens
      (TokenStream.ofSource source).fault := by
  obtain ⟨seen, u, hr, ⟨t, v, he, ha, -⟩ | ⟨e, he, hf⟩⟩ := TokenStream.ofSource_reads source
  · rw [he]
    exact hr.supplies (.gives ha.next_eq (.ended v))
  · obtain ⟨v, hnext⟩ := hf.next_eq
    have hsupplies := hr.supplies (.fails hnext)
    rw [List.append_nil] at hsupplies
    rw [he]
    exact hsupplies

end Scanner

namespace Desk

open TokenStream (marker)

variable {d d' : Desk} {c c' : Cursor} {fault : Option SyntaxError}

/-- A desk in place of a cursor. Behind the last token of a stream that ends there is nothing to be
asked for, so the cursor has a marker there. -/
structure Serves (fault : Option SyntaxError) (d : Desk) (c : Cursor) : Prop where
  current : d.scanner.current = c.lookahead
  classes : d.classes = c.classes
  ahead : d.scanner.Supplies c.ahead fault
  fault : c.fault = some (fault.getD marker)

/-- What is left to be asked for in front of a cursor. -/
def due (fault : Option SyntaxError) (c : Cursor) : Nat :=
  (TokenStream.mk c.ahead fault).requests

/-- How a reader ends at a cursor and how it ends at a desk: alike, and with no request that was not
due. -/
inductive Agrees (fault : Option SyntaxError) (d : Desk) (c : Cursor) :
    Except SyntaxError (α × Cursor) → Except SyntaxError α × Desk → Prop
  | answer {a : α} {c' : Cursor} {d' : Desk} (hserves : Serves fault d' c')
      (hrequests : d'.requests + due fault c' = d.requests + due fault c) :
      Agrees fault d c (.ok (a, c')) (.ok a, d')
  | failure {e : SyntaxError} {d' : Desk}
      (hrequests : d'.requests ≤ d.requests + due fault c) :
      Agrees fault d c (.error e) (.error e, d')

theorem Agrees.stays (hd : Serves fault d c) (r : Except SyntaxError α) :
    Agrees fault d c (r.map (·, c)) (r, d) := by
  cases r with
  | ok a => exact .answer hd rfl
  | error e => exact .failure (Nat.le_add_right _ _)

/-- What agrees from where a desk and a cursor have got to agrees from where they were before. -/
theorem Agrees.before {r : Except SyntaxError (α × Cursor)} {r' : Except SyntaxError α × Desk}
    (h : Agrees fault d' c' r r')
    (hrequests : d'.requests + due fault c' = d.requests + due fault c) :
    Agrees fault d c r r' := by
  cases h with
  | answer hserves hmore => exact .answer hserves (hmore.trans hrequests)
  | failure hmore => exact .failure (hmore.trans_eq hrequests)

/-- One request moves a desk on as a step moves a cursor on. -/
theorem Serves.ask (hd : Serves fault d c) (hmarker : fault = none → c.step ≠ .error marker) :
    Agrees fault d c (Parse.advance c) (Live.ask d) := by
  obtain ⟨t, ahead, found, classes⟩ := c
  obtain ⟨hcurrent, hclasses, hahead, hfault⟩ := hd
  cases hahead with
  | ended =>
    cases hfault
    exact absurd rfl (hmarker rfl)
  | fails hnext =>
    cases hfault
    rw [Live.ask, hnext]
    exact .failure le_rfl
  | gives hnext hrest =>
    rw [Live.ask, hnext]
    refine .answer ⟨Scanner.current_of_next hnext, hclasses, hrest, hfault⟩ ?_
    simp only [due, TokenStream.requests, List.length_cons]
    omega

end Desk

namespace Parse

open TokenStream (marker)
open Desk (Serves Agrees)

variable {p : Parse α} {c : Cursor} {d : Desk} {fault : Option SyntaxError}

/-- A reader does the same steps at a cursor and at a desk, unless it reads beyond the end. The
induction is on the steps; what is carried along is that the scanner of the desk supplies what the
cursor has ahead. -/
theorem Steps.agrees (h : Steps p) (hd : Serves fault d c)
    (hmarker : fault = none → p c ≠ .error marker) : Agrees fault d c (p c) (h.live d) := by
  induction h generalizing d c with
  | look f =>
    show Agrees fault d c (.ok (f c.lookahead, c)) (.ok (f d.scanner.current), d)
    rw [hd.current]
    exact .answer hd rfl
  | stop f =>
    show Agrees fault d c (.error (f c.lookahead)) (.error (f d.scanner.current), d)
    rw [hd.current]
    exact .failure (Nat.le_add_right _ _)
  | advance =>
    refine hd.ask fun hnone hstep => hmarker hnone ?_
    rw [Parse.advance, hstep]
    rfl
  | call word args pos =>
    rw [bareCall_answer, live, Live.find, hd.classes]
    exact .stays hd _
  | inherit word pos =>
    rw [inherit_answer, live, Live.find, hd.classes]
    exact .stays hd _
  | complete cls =>
    exact .answer ⟨hd.current, congrArg (cls :: ·) hd.classes, hd.ahead, hd.fault⟩ rfl
  | @bind α β first k h _ ih ihk =>
    have hfirst := ih hd fun hnone hp => hmarker hnone (bind_of_error hp)
    rw [live]
    generalize hrun : first c = r, hlive : h.live d = r' at hfirst
    cases hfirst with
    | failure hrequests =>
      rw [bind_of_error hrun, Live.bind_of_error hlive]
      exact .failure hrequests
    | @answer a c' d' hserves hrequests =>
      rw [bind_of_ok hrun, Live.bind_of_ok hlive]
      refine (ihk a hserves fun hnone hk => hmarker hnone ?_).before hrequests
      rw [bind_of_ok hrun, hk]

end Parse

namespace TokenStream

variable {t : Token} {ts : List Token} {fault : Option SyntaxError} {bound : Nat}

/-- With any bound that is enough, and whatever is put in place of the end behind the last token, a
reader gives the program of a stream. -/
theorem program_marked (hs : Ends ⟨t :: ts, fault⟩) (henough : ts.length + 1 < bound) :
    (Parse.program bound ⟨t, ts, some (fault.getD marker), []⟩).map Prod.fst =
      (⟨t :: ts, fault⟩ : TokenStream).parse := by
  have hsame {bound' : Nat} {other : Option SyntaxError} (hbound : ts.length + 2 ≤ bound')
      (hother : ∀ e, fault = some e → other = some e) :
      (Parse.program bound' ⟨t, ts, other, []⟩).map Prod.fst =
        (Parse.program (ts.length + 2) ⟨t, ts, fault, []⟩).map Prod.fst := by
    rcases program_append hs [] other (Nat.lt_succ_self _) hbound with h | ⟨e, hfault, hrun, hend⟩
    · rwa [List.append_nil] at h
    · have hmet := hend rfl e (hother e hfault)
      rw [List.append_nil] at hmet
      rw [hmet, hrun]
  rw [parse_cons, hsame henough, hsame (Nat.le_succ _) fun _ h => h]
  rintro e rfl
  rfl

/-- Nobody asks for what is put in place of the end. -/
theorem parse_ne_marker {s : TokenStream} (hs : s.Ends) (hnone : s.fault = none) :
    s.parse ≠ .error marker := by
  intro h
  rcases parse_error hs h with hfault | ⟨hcause, -⟩
  · rw [hnone] at hfault
    cases hfault
  · cases hcause

end TokenStream

/-- Asking for each token when it is needed gives what parsing the tokens gives, and takes no more
requests than the tokens do. -/
theorem Live.program_ofSource {source : String} {bound : Nat}
    (hbound : (TokenStream.ofSource source).tokens.length < bound) :
    (Live.program bound (.ofSource source)).1 = parse source ∧
      (Live.program bound (.ofSource source)).2.requests ≤
        (TokenStream.ofSource source).requests := by
  have hsupplies := Scanner.supplies_ofSource source
  have hends := TokenStream.ofSource_ends source
  rw [parse]
  generalize TokenStream.ofSource source = stream at *
  obtain ⟨tokens, fault⟩ := stream
  cases hsupplies with
  | ended => simpa using hends rfl
  | @fails _ u e hnext =>
    have hask : Live.ask (.ofSource source) = (.error e, ⟨u, [], 1⟩) := by
      rw [Live.ask, Desk.ofSource, hnext]
      rfl
    rw [Live.program, bind_of_error hask]
    exact ⟨rfl, le_rfl⟩
  | @gives _ u t ts _ hnext hrest =>
    have hask : Live.ask (.ofSource source) = (.ok (), ⟨u, [], 1⟩) := by
      rw [Live.ask, Desk.ofSource, hnext]
      rfl
    have hserves : Desk.Serves fault ⟨u, [], 1⟩ ⟨t, ts, some (fault.getD TokenStream.marker), []⟩ :=
      ⟨Scanner.current_of_next hnext, rfl, hrest, rfl⟩
    have hanswer := TokenStream.program_marked hends hbound
    have hmarker : fault = none → Parse.program bound
        ⟨t, ts, some (fault.getD TokenStream.marker), []⟩ ≠ .error TokenStream.marker := by
      intro hnone hrun
      rw [hrun] at hanswer
      exact TokenStream.parse_ne_marker hends hnone hanswer.symm
    have hagrees := (Parse.Account.program bound).steps.agrees hserves hmarker
    have hdue : (⟨t :: ts, fault⟩ : TokenStream).requests =
        1 + (⟨ts, fault⟩ : TokenStream).requests := by
      simp only [TokenStream.requests, List.length_cons]
      omega
    rw [Live.program, bind_of_ok hask, ← hanswer, hdue]
    generalize Parse.program bound _ = r, Parse.Steps.live _ _ = r' at hagrees
    cases hagrees with
    | answer hserves' hrequests => exact ⟨rfl, (Nat.le_add_right _ _).trans_eq hrequests⟩
    | failure hrequests => exact ⟨rfl, hrequests⟩

/-- A scanner is asked as often as its stream takes, or reading was cut short. -/
theorem TokenStream.ofScanner_eq_iff (source : String) (n : Nat) :
    ofScanner n (.ofSource source) = ofSource source ↔ (ofSource source).requests ≤ n := by
  refine ⟨fun h => ?_, ofScanner_of_requests_le source⟩
  have hcases := requests_ofScanner n (.ofSource source)
  rw [h] at hcases
  rcases hcases with hle | ⟨pos, hfault⟩
  · exact hle
  · have htext := ofText_of_fault hfault
    simp [SyntaxError.OfText, SyntaxError.code, SyntaxError.Cause.code] at htext

/-- Reading a text is never cut short. -/
theorem cause_ne_unfinished {source : String} {e : SyntaxError} (h : parse source = .error e) :
    e.cause ≠ .unfinished := by
  intro hcause
  have hcode : e.code = "P000" := by
    rw [SyntaxError.code, hcause]
    rfl
  rcases error_of_parse h with htext | hgrammar
  · have htext := TokenStream.ofText_of_fault (TokenStream.tokenize_eq_error.1 htext)
    rw [SyntaxError.OfText, hcode] at htext
    revert htext
    decide
  · rw [SyntaxError.OfGrammar, hcode] at hgrammar
    revert hgrammar
    decide

/-- Reading ends. A parser that asks a scanner for one token after another gives the program of the
text or the error that it has, with any bound that is greater than the number of tokens, and no
error says that reading was cut short. It makes at most as many requests as the tokens of the text
take, which is the least number of requests that give them and at most two more than there are
bytes. In front of fewer tokens than there is room for, a statement, a method, an expression and
each level of precedence reads at least one token, or gives up with the error of the tokens or with
one of the grammar, and every loop comes to its end or gives up in the same way. -/
theorem reading_ends (source : String) :
    (∀ bound, (TokenStream.ofSource source).tokens.length < bound →
      let done := Live.program bound (.ofSource source)
      done.1 = parse source ∧ done.2.requests ≤ (TokenStream.ofSource source).requests) ∧
    (∀ e, parse source = .error e → e.cause ≠ .unfinished) ∧
    (∀ n, TokenStream.ofScanner n (.ofSource source) = .ofSource source ↔
      (TokenStream.ofSource source).requests ≤ n) ∧
    (TokenStream.ofSource source).requests ≤ (utf8 source).length + 2 ∧
    ∀ (α : Type) (bound room least : Nat) (p : Parse α), Parse.Routine bound room least p →
      p.Progresses room least :=
  ⟨fun _ => Live.program_ofSource, fun _ => cause_ne_unfinished,
    TokenStream.ofScanner_eq_iff source, TokenStream.requests_ofSource_le source,
    fun _ _ _ _ _ => Parse.Routine.progresses⟩

/-- A parenthesis that closes nothing: reading gives up, and five requests are enough. -/
theorem reading_ends_stray :
    (Live.program 6 (.ofSource "print ) x")).1 = parse "print ) x" ∧
      (Live.program 6 (.ofSource "print ) x")).2.requests ≤ 5 := by
  obtain ⟨hlive, -⟩ := reading_ends "print ) x"
  have hlength : (TokenStream.ofSource "print ) x").tokens.length < 6 := by decide +kernel
  have hrequests : (TokenStream.ofSource "print ) x").requests = 5 := by decide +kernel
  obtain ⟨hanswer, hle⟩ := hlive 6 hlength
  exact ⟨hanswer, hle.trans_eq hrequests⟩

end Mython
