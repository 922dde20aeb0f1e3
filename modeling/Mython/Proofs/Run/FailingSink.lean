import Mython.Proofs.Run.DepthLimit

namespace Mython

open Run

/-- A text that was written, with the line of the statement that wrote it. -/
structure LogEntry where
  line : Nat
  text : String
  deriving DecidableEq

/-- What a primitive step writes. -/
def Primitive.log {α : Type} {p : Multiset Handle} {f : Run α} {q : α → Multiset Handle} :
    Primitive p f q → Machine → List LogEntry
  | .write line text, m => if (m.sink.write? text).isSome then [⟨line, text⟩] else []
  | _, _ => []

/-- What requests to a guest write. -/
structure Guest.Log where
  call : Handle → String → List Handle → Nat → Machine → List LogEntry
  render : Handle → Nat → Machine → List LogEntry

/-- What a script writes from a state on, in order. -/
def Script.log (g : Guest) (requests : Guest.Log) {α : Type} {p : Multiset Handle}
    {f : Guest → Run α} {q : α → Multiset Handle} : Script p f q → Machine → List LogEntry
  | .step h, m => h.log m
  | .frame _ h _, m => h.log m
  | @Script.bind _ _ _ f _ _ _ h hk, m =>
    h.log g requests m ++ match f g m with
      | (.ok a, m') => (hk a).log g requests m'
      | (.error _, _) => []
  | .holding _ h, m => h.log g requests m
  | .keeping _ h, m => h.log g requests m
  | @Script.seize _ _ look _ _ _ _ hb ho, m =>
    match look m.heap with
    | .ok loc => (hb loc).log g requests { m with heap := m.heap.retain (.own loc) }
    | .error found => (ho found).log g requests m
  | .bestow x _ _ _ h, m =>
    match instanceAt x m.heap with
    | .ok loc => h.log g requests { m with heap := m.heap.retain (.own loc) }
    | .error _ => []
  | .call x name args line, m => requests.call x name args line m
  | .render x line, m => requests.render x line m
  | .conv h _ _ _, m => h.log g requests m

section Bind

variable {g : Guest} {requests : Guest.Log} {α β : Type} {p : Multiset Handle}
  {f : Guest → Run α} {k : Guest → α → Run β} {q : α → Multiset Handle} {r : β → Multiset Handle}
  {m m' : Machine}

theorem Script.log_bind_of_ok (h : Script p f q) (hk : ∀ a, Script (q a) (fun g => k g a) r)
    {a : α} (hf : f g m = (.ok a, m')) :
    (h.bind hk).log g requests m = h.log g requests m ++ (hk a).log g requests m' := by
  simp only [log, hf]

theorem Script.log_bind_of_error (h : Script p f q) (hk : ∀ a, Script (q a) (fun g => k g a) r)
    {e : Halt} (hf : f g m = (.error e, m')) :
    (h.bind hk).log g requests m = h.log g requests m := by
  simp only [log, hf, List.append_nil]

end Bind

/-- What requests write, with a limit on the depth of calls and an amount of fuel. -/
def Guest.logWithin (limit : Nat) : Nat → Guest.Log
  | 0 => ⟨fun _ _ _ _ _ => [], fun _ _ _ => []⟩
  | n + 1 =>
    ⟨fun x name args _ m =>
        match m.dispatch limit x name args.length with
        | .error _ => []
        | .ok (loc, method) =>
          if h : method.arity = args.length then
            (bodyScript method args h).log (within limit n) (logWithin limit n) (m.entered loc)
          else [],
      fun x line m => (textScript x line).log (within limit n) (logWithin limit n) m⟩

/-- The machine with a sink that takes only a number of texts more. -/
def Machine.limited (m : Machine) (n : Nat) : Machine :=
  { m with sink := { m.sink with capacity := .writes n } }

/-- A run from a state has a log: it writes what is in it, and as much of it as a sink takes. -/
structure Run.Follows (f : Run α) (log : List LogEntry) (m : Machine) : Prop where
  written : (f m).2.sink.written.toList = m.sink.written.toList ++ log.map (·.text)
  refusal : (f m).2.sink.refusal = m.sink.refusal
  endless : m.sink.capacity = .endless → (f m).2.sink.capacity = .endless
  whole : m.sink.capacity = .endless → ∀ n, log.length ≤ n →
    f (m.limited n) = ((f m).1, (f m).2.limited (n - log.length))
  cut : m.sink.capacity = .endless → ∀ n entry, log[n]? = some entry →
    (f (m.limited n)).1 = .error (.fault ⟨entry.line, .output m.sink.refusal⟩) ∧
      (f (m.limited n)).2.sink.written.toList =
        m.sink.written.toList ++ (log.take n).map (·.text)

/-- A run that neither looks at the sink nor changes it. -/
def Run.Silent (f : Run α) : Prop :=
  ∀ (m : Machine) (sink : Sink), f { m with sink } = ((f m).1, { (f m).2 with sink })

namespace Run.Follows

theorem silent {f : Run α} (h : Silent f) (m : Machine) : Follows f [] m := by
  have hsink : (f m).2.sink = m.sink := by
    have hself := congrArg (·.2.sink) (h m m.sink)
    exact hself
  refine ⟨?_, ?_, ?_, ?_, ?_⟩
  · simp [hsink]
  · rw [hsink]
  · intro hendless
    rw [hsink, hendless]
  · intro _ n _
    rw [Machine.limited, h, Machine.limited, hsink]
    rfl
  · intro _ n entry hentry
    cases hentry

theorem write (line : Nat) (text : String) (m : Machine) :
    Follows (write line text) (if (m.sink.write? text).isSome then [⟨line, text⟩] else []) m := by
  cases hw : m.sink.write? text with
  | none =>
    have hrun : Run.write line text m = _ := write_of_none hw
    have hnot : m.sink.capacity ≠ .endless := by
      intro hendless
      simp [Sink.write?, Capacity.take?, hendless] at hw
    refine ⟨by simp [hrun], by rw [hrun], fun h => absurd h hnot, fun h => absurd h hnot,
      fun h => absurd h hnot⟩
  | some sink =>
    have hrun : Run.write line text m = _ := write_of_some hw
    obtain ⟨capacity, htake, rfl⟩ := Option.map_eq_some_iff.1 hw
    simp only [Option.isSome_some, if_true]
    refine ⟨?_, ?_, ?_, ?_, ?_⟩
    · simp [hrun]
    · rw [hrun]
    · intro hendless
      rw [hendless] at htake
      cases htake
      rw [hrun]
    · intro _ n hn
      obtain ⟨k, rfl⟩ := Nat.exists_eq_succ_of_ne_zero (Nat.ne_of_gt hn)
      rw [hrun]
      rfl
    · intro _ n entry hentry
      cases n with
      | zero =>
        cases hentry
        exact ⟨rfl, by simp [Machine.limited, Run.write, Sink.write?, Capacity.take?]⟩
      | succ n => cases hentry

theorem bind_of_error {f : Run α} {k : α → Run β} {log : List LogEntry} {m m' : Machine} {e : Halt}
    (h : Follows f log m) (hf : f m = (.error e, m')) : Follows (f >>= k) log m := by
  have hrun : (f >>= k) m = (.error e, m') := Run.bind_of_error hf
  obtain ⟨hwritten, hrefusal, hendless, hwhole, hcut⟩ := h
  rw [hf] at hwritten hrefusal hendless hwhole
  refine ⟨by rw [hrun]; exact hwritten, by rw [hrun]; exact hrefusal,
    by rw [hrun]; exact hendless, ?_, ?_⟩
  · intro hsink n hn
    rw [hrun, Run.bind_of_error (hwhole hsink n hn)]
  · intro hsink n entry hentry
    obtain ⟨hresult, htexts⟩ := hcut hsink n entry hentry
    have hrefused : f (m.limited n) = (.error _, (f (m.limited n)).2) := Prod.ext hresult rfl
    rw [Run.bind_of_error hrefused]
    exact ⟨rfl, htexts⟩

theorem bind_of_ok {f : Run α} {k : α → Run β} {log more : List LogEntry} {m m' : Machine} {a : α}
    (h : Follows f log m) (hf : f m = (.ok a, m')) (hk : Follows (k a) more m') :
    Follows (f >>= k) (log ++ more) m := by
  have hrun : (f >>= k) m = k a m' := Run.bind_of_ok hf
  obtain ⟨hwritten, hrefusal, hendless, hwhole, hcut⟩ := h
  rw [hf] at hwritten hrefusal hendless hwhole
  refine ⟨?_, ?_, ?_, ?_, ?_⟩
  · rw [hrun, hk.written, hwritten, List.map_append, List.append_assoc]
  · rw [hrun, hk.refusal, hrefusal]
  · intro hsink
    rw [hrun]
    exact hk.endless (hendless hsink)
  · intro hsink n hn
    rw [List.length_append] at hn ⊢
    have hfirst := hwhole hsink n (by omega)
    have hsecond := hk.whole (hendless hsink) (n - log.length) (by omega)
    rw [hrun, Run.bind_of_ok hfirst, hsecond, Nat.sub_sub]
  · intro hsink n entry hentry
    rcases Nat.lt_or_ge n log.length with hlt | hge
    · rw [List.getElem?_append_left hlt] at hentry
      obtain ⟨hresult, htexts⟩ := hcut hsink n entry hentry
      have hrefused : f (m.limited n) = (.error _, (f (m.limited n)).2) := Prod.ext hresult rfl
      rw [Run.bind_of_error hrefused, List.take_append_of_le_length (Nat.le_of_lt hlt)]
      exact ⟨rfl, htexts⟩
    · rw [List.getElem?_append_right hge] at hentry
      have hfirst := hwhole hsink n hge
      obtain ⟨hresult, htexts⟩ := hk.cut (hendless hsink) (n - log.length) entry hentry
      rw [Run.bind_of_ok hfirst]
      rw [hrefusal] at hresult
      refine ⟨hresult, ?_⟩
      rw [htexts, hwritten, List.take_append, List.take_of_length_le hge, List.map_append,
        List.append_assoc]

/-- What is done before and after a run without the sink leaves its log alone. -/
theorem wrap {f : Run α} {log : List LogEntry} {m : Machine} (before : Machine → Machine)
    (after : Machine → Except Halt α → Machine → Machine) (h : Follows f log (before m))
    (hbefore : ∀ m sink, before { m with sink } = { before m with sink })
    (hafter : ∀ m r s sink sink', after { m with sink } r { s with sink := sink' } =
      { after m r s with sink := sink' }) :
    Follows (fun m => ((f (before m)).1, after m (f (before m)).1 (f (before m)).2)) log m := by
  have hsink : (before m).sink = m.sink := congrArg (·.sink) (hbefore m m.sink)
  have hsink' (m : Machine) (r : Except Halt α) (s : Machine) : (after m r s).sink = s.sink :=
    congrArg (·.sink) (hafter m r s m.sink s.sink)
  have hlimited (n : Nat) : before (m.limited n) = (before m).limited n := by
    rw [Machine.limited, hbefore, Machine.limited, hsink]
  obtain ⟨hwritten, hrefusal, hendless, hwhole, hcut⟩ := h
  rw [hsink] at hwritten hrefusal hendless hwhole hcut
  refine ⟨?_, ?_, ?_, ?_, ?_⟩
  · rw [hsink', hwritten]
  · rw [hsink', hrefusal]
  · intro he
    rw [hsink', hendless he]
  · intro he n hn
    have hrun := hwhole he n hn
    have hdone := hafter m (f (before m)).1 (f (before m)).2
      { m.sink with capacity := .writes n }
      { (f (before m)).2.sink with capacity := .writes (n - log.length) }
    simp only [hlimited, hrun]
    refine Prod.ext rfl (hdone.trans ?_)
    rw [Machine.limited, hsink']
  · intro he n entry hentry
    obtain ⟨hresult, htexts⟩ := hcut he n entry hentry
    simp only [hlimited, hsink']
    exact ⟨hresult, htexts⟩

theorem holding {f : Run α} {log : List LogEntry} {m : Machine} (h : Follows f log m) (x : Handle) :
    Follows (holding x f) log m :=
  h.wrap id (fun _ _ s => { s with heap := s.heap.release x }) (fun _ _ => rfl)
    fun _ _ _ _ _ => rfl

theorem keeping {f : Run α} {log : List LogEntry} {m : Machine} (h : Follows f log m) (x : Handle) :
    Follows (keeping x f) log m := by
  have hdone := h.wrap id
    (fun _ r s => match r with
      | .ok _ => s
      | .error _ => { s with heap := s.heap.release x })
    (fun _ _ => rfl) (fun _ r _ _ _ => by cases r <;> rfl)
  have hsame : Run.keeping x f = fun m => ((f m).1, match (f m).1 with
      | .ok _ => (f m).2
      | .error _ => { (f m).2 with heap := (f m).2.heap.release x }) := by
    funext m
    rw [Run.keeping]
    rcases f m with ⟨e | a, m'⟩ <;> rfl
  rw [hsame]
  exact hdone

theorem inScope {f : Run α} {log : List LogEntry} {m : Machine} {scope : Bindings}
    (h : Follows f log { m with scope, depth := m.depth + 1 }) :
    Follows (inScope scope f) log m :=
  h.wrap (fun m => { m with scope, depth := m.depth + 1 })
    (fun m _ s => ⟨s.scope.handles.foldl Heap.release s.heap, m.scope, s.sink, s.depth - 1⟩)
    (fun _ _ => rfl) fun _ _ _ _ _ => rfl

/-- So does one more owner in the beginning. -/
theorem retained {f : Run α} {log : List LogEntry} {m : Machine} {x : Handle}
    (h : Follows f log { m with heap := m.heap.retain x }) :
    Follows (do retain x; f) log m :=
  h.wrap (fun m => { m with heap := m.heap.retain x }) (fun _ _ s => s) (fun _ _ => rfl)
    fun _ _ _ _ _ => rfl

/-- Only what a run does from the state counts, whatever the sink is. -/
theorem congr {f f' : Run α} {log : List LogEntry} {m : Machine} (h : Follows f log m)
    (hsame : ∀ sink, f { m with sink } = f' { m with sink }) : Follows f' log m := by
  have hself : f m = f' m := hsame m.sink
  have hlimited (n : Nat) : f (m.limited n) = f' (m.limited n) := hsame _
  obtain ⟨hwritten, hrefusal, hendless, hwhole, hcut⟩ := h
  simp only [hself, hlimited] at hwritten hrefusal hendless hwhole hcut
  exact ⟨hwritten, hrefusal, hendless, hwhole, hcut⟩

theorem seize_of_ok {look : Heap → Except β Loc} {body : Loc → Run α} {other : β → Run α}
    {log : List LogEntry} {m : Machine} {loc : Loc} (hl : look m.heap = .ok loc)
    (h : Follows (body loc) log { m with heap := m.heap.retain (.own loc) }) :
    Follows (seize look body other) log m := by
  apply (h.holding (.own loc)).retained.congr
  intro sink
  have hl' : look ({ m with sink } : Machine).heap = .ok loc := hl
  exact (Run.seize_of_ok hl').symm

theorem seize_of_error {look : Heap → Except β Loc} {body : Loc → Run α} {other : β → Run α}
    {log : List LogEntry} {m : Machine} {found : β} (hl : look m.heap = .error found)
    (h : Follows (other found) log m) : Follows (seize look body other) log m := by
  apply h.congr
  intro sink
  have hl' : look ({ m with sink } : Machine).heap = .error found := hl
  exact (Run.seize_of_error hl').symm

/-- Giving a value to a field writes no more than finding the value does. -/
theorem bestow {f : Run Handle} {log : List LogEntry} {m : Machine} (h : Follows f log m)
    (loc : Loc) (field : String) : Follows (bestow loc field f) log m := by
  rw [Run.bestow]
  rcases hf : f m with ⟨e | y, m'⟩
  · exact h.bind_of_error hf
  · rw [← List.append_nil log]
    exact h.bind_of_ok hf (silent (fun _ _ => rfl) m')

end Run.Follows

theorem Primitive.follows {p : Multiset Handle} {f : Run α} {q : α → Multiset Handle}
    (h : Primitive p f q) (m : Machine) : Follows f (h.log m) m := by
  cases h with
  | pure a q => exact .silent (fun _ _ => rfl) m
  | ask look => exact .silent (fun _ _ => rfl) m
  | raise line hc q => exact .silent (fun _ _ => rfl) m
  | fresh ho => exact .silent (fun _ _ => rfl) m
  | freshInstance cls => exact .silent (fun _ _ => rfl) m
  | @compute line look ho hc =>
    apply Follows.silent
    intro m sink
    rw [Run.compute, ask_bind, ask_bind]
    cases look m.heap <;> rfl
  | path root fields line =>
    apply Follows.silent
    intro m sink
    cases hget : m.scope.get? root with
    | none => simp only [Run.path, hget]
    | some x => cases hfollow : m.heap.follow root x fields <;> simp only [Run.path, hget, hfollow]
  | fetch x owner name line =>
    apply Follows.silent
    intro m sink
    rw [Run.fetch, ask_bind, ask_bind]
    cases m.heap.field x owner name <;> rfl
  | retain x => exact .silent (fun _ _ => rfl) m
  | release x => exact .silent (fun _ _ => rfl) m
  | releaseAll xs => exact .silent (fun _ _ => rfl) m
  | assign name x => exact .silent (fun _ _ => rfl) m
  | write line text => exact .write line text m

/-- Requests to a guest have a log from every state. -/
structure Guest.Drained (g : Guest) (requests : Guest.Log) : Prop where
  call : ∀ x name args line m,
    Follows (g.call x name args line) (requests.call x name args line m) m
  render : ∀ x line m, Follows (g.render x line) (requests.render x line m) m

/-- A run follows the log of its script. -/
theorem Script.follows {g : Guest} {requests : Guest.Log} (hg : g.Drained requests)
    {p : Multiset Handle} {f : Guest → Run α} {q : α → Multiset Handle} (h : Script p f q)
    (m : Machine) : Follows (f g) (h.log g requests m) m := by
  induction h generalizing m with
  | step h => exact h.follows m
  | frame rest h _ => exact h.follows m
  | @bind _ _ _ f k _ _ h hk ih ihk =>
    rcases hf : f g m with ⟨e | a, m'⟩
    · rw [log_bind_of_error h hk hf]
      exact (ih m).bind_of_error hf
    · rw [log_bind_of_ok h hk hf]
      exact (ih m).bind_of_ok hf (ihk a m')
  | holding x _ ih => exact (ih m).holding x
  | keeping x _ ih => exact (ih m).keeping x
  | @seize _ _ look _ _ _ _ _ _ ihb iho =>
    rw [log]
    cases hl : look m.heap with
    | ok loc => exact .seize_of_ok hl (ihb loc _)
    | error found => exact .seize_of_error hl (iho found m)
  | bestow x describe field line _ ih =>
    rw [log]
    cases hl : instanceAt x m.heap with
    | ok loc => exact .seize_of_ok hl ((ih _).bestow loc field)
    | error found => exact .seize_of_error hl (.silent (fun _ _ => rfl) m)
  | call x name args line => exact hg.call x name args line m
  | render x line => exact hg.render x line m
  | conv _ _ hf _ ih =>
    rw [log, ← hf]
    exact ih m

/-- A call has the log of the body of its method. -/
theorem Guest.follows_around {limit : Nat} {run : Method → List Handle → Run Handle} {x : Handle}
    {name : String} {args : List Handle} {m : Machine} {loc : Loc} {method : Method}
    {log : List LogEntry} (line : Nat)
    (hd : m.dispatch limit x name args.length = .ok (loc, method))
    (h : Follows (run method args) log (m.entered loc)) :
    Follows (around limit run x name args line) log m := by
  have hscope : Follows (inScope ⟨[(selfName, .own loc)]⟩ (run method args)) log
      { m with heap := (m.heap.retain (.own loc)).retain (.own loc) } := .inScope h
  have htwice : Follows (do retain (.own loc); inScope ⟨[(selfName, .own loc)]⟩ (run method args))
      log { m with heap := m.heap.retain (.own loc) } := .retained hscope
  apply (htwice.holding (.own loc)).retained.congr
  intro sink
  have hd' : ({ m with sink } : Machine).dispatch limit x name args.length = .ok (loc, method) := hd
  exact (around_of_ok hd').symm

/-- A call that is refused writes nothing. -/
theorem Guest.follows_refused {limit : Nat} {run : Method → List Handle → Run Handle} {x : Handle}
    {name : String} {args : List Handle} {m : Machine} {cause : Fault.Cause} (line : Nat)
    (hd : m.dispatch limit x name args.length = .error cause) :
    Follows (around limit run x name args line) [] m := by
  have hrefused : Follows (do releaseAll args; raise line cause : Run Handle) [] m :=
    .silent (fun _ _ => rfl) m
  apply hrefused.congr
  intro sink
  have hd' : ({ m with sink } : Machine).dispatch limit x name args.length = .error cause := hd
  exact (around_of_error hd').symm

theorem Guest.within_drained (limit n : Nat) : (within limit n).Drained (logWithin limit n) := by
  induction n with
  | zero =>
    exact ⟨fun _ _ _ _ => .silent fun _ _ => rfl, fun _ _ => .silent fun _ _ => rfl⟩
  | succ n ih =>
    constructor
    · intro x name args line m
      show Follows ((within limit n).invoke limit x name args line) _ m
      rw [invoke_eq_around]
      cases hd : m.dispatch limit x name args.length with
      | error cause =>
        have hlog : (logWithin limit (n + 1)).call x name args line m = [] := by
          simp only [logWithin, hd]
        rw [hlog]
        exact follows_refused line hd
      | ok found =>
        obtain ⟨loc, method⟩ := found
        have harity := (Machine.dispatch_ok hd).2.2.1
        have hlog : (logWithin limit (n + 1)).call x name args line m =
            (bodyScript method args harity).log (within limit n) (logWithin limit n)
              (m.entered loc) := by
          simp only [logWithin, hd, dif_pos harity]
        rw [hlog]
        exact follows_around line hd ((bodyScript method args harity).follows ih _)
    · intro x line m
      exact (textScript x line).follows ih m

/-- The log of a program that ends, told by any amount of fuel that suffices. -/
def Program.Logs (p : Program) (limit : Nat) (m : Machine) (log : List LogEntry) : Prop :=
  ∃ fuel, (p.exec (.within limit fuel) m).1 ≠ .error .exhausted ∧
    p.script.log (.within limit fuel) (Guest.logWithin limit fuel) m = log

section Ending

variable {p : Program} {limit : Nat} {m s : Machine} {r : Except Halt Unit} {log : List LogEntry}

theorem Program.Ends.logs (h : p.Ends limit m r s) : ∃ log, p.Logs limit m log := by
  obtain ⟨hr, fuel, hfuel⟩ := h
  refine ⟨_, fuel, ?_, rfl⟩
  rw [hfuel]
  exact hr

/-- The run that a log was taken from is the one that ends. -/
theorem Program.Logs.follows (hlog : p.Logs limit m log) (h : p.Ends limit m r s) :
    ∃ fuel, p.exec (.within limit fuel) m = (r, s) ∧
      Follows (p.exec (.within limit fuel)) log m := by
  obtain ⟨fuel, hends, rfl⟩ := hlog
  obtain ⟨hr, hs⟩ := (ends_of_result fuel rfl hends).unique h
  exact ⟨fuel, Prod.ext hr hs, p.script.follows (Guest.within_drained limit fuel) m⟩

theorem Program.Logs.written (hlog : p.Logs limit m log) (h : p.Ends limit m r s) :
    s.sink.written.toList = m.sink.written.toList ++ log.map (·.text) := by
  obtain ⟨fuel, hrun, hfollows⟩ := hlog.follows h
  have hwritten := hfollows.written
  rwa [hrun] at hwritten

/-- A sink that takes the whole log makes no difference. -/
theorem Program.Logs.whole (hlog : p.Logs limit m log) (h : p.Ends limit m r s)
    (hm : m.sink.capacity = .endless) {n : Nat} (hn : log.length ≤ n) :
    p.Ends limit (m.limited n) r (s.limited (n - log.length)) := by
  obtain ⟨fuel, hrun, hfollows⟩ := hlog.follows h
  have hwhole := hfollows.whole hm n hn
  rw [hrun] at hwhole
  exact ⟨h.1, fuel, hwhole⟩

/-- A sink that takes a part of the log ends the run behind that part. -/
theorem Program.Logs.cut (hlog : p.Logs limit m log) (h : p.Ends limit m r s)
    (hm : m.sink.capacity = .endless) {n : Nat} {entry : LogEntry} (hn : log[n]? = some entry) :
    ∃ s', p.Ends limit (m.limited n)
        (.error (.fault ⟨entry.line, .output m.sink.refusal⟩)) s' ∧
      s'.sink.written.toList = m.sink.written.toList ++ (log.take n).map (·.text) := by
  obtain ⟨fuel, -, hfollows⟩ := hlog.follows h
  obtain ⟨hresult, htexts⟩ := hfollows.cut hm n entry hn
  exact ⟨_, ends_of_result fuel hresult (by simp), htexts⟩

end Ending

section Print

variable (g : Guest) (requests : Guest.Log) (args : List Expr) (pos : Position) (m : Machine)

/-- The log of the arguments of a print statement. -/
def Expr.argumentLog : List LogEntry := (Expr.textAllScript pos.line args).log g requests m

theorem Expr.length_of_textAll {g : Guest} {line : Nat} {args : List Expr} {m m' : Machine}
    {texts : List String} (h : Expr.textAll g line args m = (.ok texts, m')) :
    texts.length = args.length := by
  induction args generalizing m texts with
  | nil =>
    cases h
    rfl
  | cons e es ih =>
    rw [Expr.textAll] at h
    rcases hx : e.eval g m with ⟨_ | x, m₁⟩
    · rw [bind_of_error hx] at h
      cases h
    rw [bind_of_ok hx] at h
    rcases ht : holding x (g.render x line) m₁ with ⟨_ | text, m₂⟩
    · rw [bind_of_error ht] at h
      cases h
    rw [bind_of_ok ht] at h
    rcases hs : Expr.textAll g line es m₂ with ⟨_ | others, m₃⟩
    · rw [bind_of_error hs] at h
      cases h
    rw [bind_of_ok hs] at h
    cases h
    rw [List.length_cons, List.length_cons, ih hs]

/-- A print statement whose arguments fail adds no text of its own. -/
theorem Stmt.print_of_error {e : Halt} {m' : Machine}
    (h : Expr.textAll g pos.line args m = (.error e, m')) :
    (Stmt.print args pos).exec g m = (.error e, m') ∧
      (Stmt.print args pos).script.log g requests m = Expr.argumentLog g requests args pos m := by
  constructor
  · rw [Stmt.exec]
    exact bind_of_error h
  · exact Script.log_bind_of_error _ _ h

/-- A print statement adds its text at once, when all arguments have been put into text. -/
theorem Stmt.print_of_ok {texts : List String} {m' : Machine}
    (h : Expr.textAll g pos.line args m = (.ok texts, m')) :
    (Stmt.print args pos).script.log g requests m = Expr.argumentLog g requests args pos m ++
      if (m'.sink.write? (" ".intercalate texts ++ "\n")).isSome then
        [⟨pos.line, " ".intercalate texts ++ "\n"⟩] else [] := by
  refine (Script.log_bind_of_ok _ _ h).trans (congrArg _ ?_)
  rcases hw : write pos.line (" ".intercalate texts ++ "\n") m' with ⟨e | a, m''⟩
  · exact Script.log_bind_of_error _ _ hw
  · exact (Script.log_bind_of_ok _ _ hw).trans (List.append_nil _)

end Print

/-- A sink that refuses texts only ever cuts a run short. The run has a log, which tells what is
written if every text is taken. If the sink takes that many texts, the run ends as it does with a
sink that takes everything. If not, it ends with the refusal of the next text, at the line of the
statement that would write it, and has written the texts before. A print statement adds to the log
of its arguments at most one text, after all of them have been put into text, and none if one of
them fails. -/
theorem Program.failing_sink_truncates (p : Program) {limit : Nat} {m s : Machine}
    {r : Except Halt Unit} (hm : m.sink.capacity = .endless) (h : p.Ends limit m r s) :
    (∃ log, p.Logs limit m log) ∧
    (∀ log, p.Logs limit m log →
      s.sink.written.toList = m.sink.written.toList ++ log.map (·.text) ∧
      ∀ n,
        (log.length ≤ n → ∀ r₁ s₁, p.Ends limit (m.limited n) r₁ s₁ ↔
          r₁ = r ∧ s₁ = s.limited (n - log.length)) ∧
        ∀ entry, log[n]? = some entry → ∃ s',
          (∀ r₁ s₁, p.Ends limit (m.limited n) r₁ s₁ ↔
            r₁ = .error (.fault ⟨entry.line, .output m.sink.refusal⟩) ∧ s₁ = s') ∧
          s'.sink.written.toList = m.sink.written.toList ++ (log.take n).map (·.text)) ∧
    ∀ fuel args pos m₁,
      (∀ e m₂, Expr.textAll (.within limit fuel) pos.line args m₁ = (.error e, m₂) →
        (Stmt.print args pos).exec (.within limit fuel) m₁ = (.error e, m₂) ∧
        (Stmt.print args pos).script.log (.within limit fuel) (Guest.logWithin limit fuel) m₁ =
          Expr.argumentLog (.within limit fuel) (Guest.logWithin limit fuel) args pos m₁) ∧
      ∀ texts m₂, Expr.textAll (.within limit fuel) pos.line args m₁ = (.ok texts, m₂) →
        texts.length = args.length ∧
        (Stmt.print args pos).script.log (.within limit fuel) (Guest.logWithin limit fuel) m₁ =
          Expr.argumentLog (.within limit fuel) (Guest.logWithin limit fuel) args pos m₁ ++
            if (m₂.sink.write? (" ".intercalate texts ++ "\n")).isSome then
              [⟨pos.line, " ".intercalate texts ++ "\n"⟩] else [] := by
  have honly {m' s' : Machine} {r' : Except Halt Unit} (hends : p.Ends limit m' r' s') :
      ∀ r₁ s₁, p.Ends limit m' r₁ s₁ ↔ r₁ = r' ∧ s₁ = s' := by
    intro r₁ s₁
    constructor
    · intro h₁
      exact h₁.unique hends
    · rintro ⟨rfl, rfl⟩
      exact hends
  refine ⟨h.logs, ?_, ?_⟩
  · intro log hlog
    refine ⟨hlog.written h, ?_⟩
    intro n
    constructor
    · intro hn
      exact honly (hlog.whole h hm hn)
    · intro entry hentry
      obtain ⟨s', hends, htexts⟩ := hlog.cut h hm hentry
      exact ⟨s', honly hends, htexts⟩
  · intro fuel args pos m₁
    constructor
    · intro e m₂ hfails
      exact Stmt.print_of_error _ _ args pos m₁ hfails
    · intro texts m₂ htexts
      exact ⟨Expr.length_of_textAll htexts, Stmt.print_of_ok _ _ args pos m₁ htexts⟩

/-- A program that prints what a method returns, which prints something itself. -/
def Program.nestedPrints : Program :=
  let inner : Method := ⟨"f", [], [.print [.text "f" ⟨3, 11⟩] ⟨3, 5⟩,
    .ret (some (.number 1 ⟨4, 12⟩)) ⟨4, 5⟩]⟩
  ⟨[.print [.call (.construct ⟨"A", [inner], none⟩ [] ⟨5, 7⟩) "f" [] ⟨5, 7⟩] ⟨5, 1⟩]⟩

/-- The text of the method comes first. With room for one text, the statement around it fails. -/
theorem Program.failing_sink_truncates_nestedPrints :
    ∃ s', nestedPrints.Ends 10 ((Machine.start .endless).limited 1)
        (.error (.fault ⟨5, .output ""⟩)) s' ∧ s'.sink.written.toList = ["f\n"] := by
  have hok : (nestedPrints.exec (.within 10 3) (.start .endless)).1 = .ok () := by decide +kernel
  have hlog : nestedPrints.Logs 10 (.start .endless) [⟨3, "f\n"⟩, ⟨5, "1\n"⟩] :=
    ⟨3, by decide +kernel, by decide +kernel⟩
  obtain ⟨-, hlogs, -⟩ := failing_sink_truncates nestedPrints rfl (ends_of_result 3 hok (by simp))
  obtain ⟨-, hruns⟩ := hlogs _ hlog
  obtain ⟨s', hends, htexts⟩ := (hruns 1).2 ⟨5, "1\n"⟩ rfl
  exact ⟨s', (hends _ _).2 ⟨rfl, rfl⟩, htexts⟩

end Mython
